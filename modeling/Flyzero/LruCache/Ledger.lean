import Flyzero.Lib.Ledger
import Flyzero.LruCache.Refinement
import Mathlib.Data.Multiset.MapFold

/-! What an `LruCache` takes from its allocator over its life, and what it gives back. -/
namespace Flyzero.LruCache
variable {K V U : Type*}

inductive Block where
  | node (p : Ptr) (n : Nat)
  | buckets (p : Ptr) (n : Nat)
  deriving DecidableEq

def MemoryEvent.entry : MemoryEvent → Ledger.Entry Block
  | .allocateNode p => .allocate (.node p 1)
  | .destroyNode p => .destroy (.node p 1)
  | .deallocateNode p n => .deallocate (.node p n)
  | .allocateBuckets p n => .allocate (.buckets p n)
  | .destroyBuckets p n => .destroy (.buckets p n)
  | .deallocateBuckets p n => .deallocate (.buckets p n)

namespace Cache

def books (c : Cache K V) : Option (Ledger.Books Block) :=
  Ledger.books (c.ledger.map MemoryEvent.entry)

/-- A round of `clear_and_dispose`, which unlinks a node before its disposer is called. -/
def disposeNext (c : Cache K V) (p : Ptr) : Cache K V :=
  { c with hash := c.hash.erase p }.dispose p

/-- The destructor. -/
def destroy (c : Cache K V) : Cache K V :=
  c.hash.elements.foldl disposeNext { c with list := [] }

/-- What a container reaches is held and not destroyed. -/
def Kept (c : Cache K V) : Prop :=
  ∃ b, c.books = some b ∧ .buckets c.bucketPointer c.bucketCount ∈ b.alive ∧
    ∀ p, p ∈ c.list ∨ c.hash.Linked p → .node p 1 ∈ b.alive

def held (c : Cache K V) (nodes : Multiset Ptr) : Multiset Block :=
  .buckets c.bucketPointer c.bucketCount ::ₘ nodes.map (Block.node · 1)

structure Accounted (c : Cache K V) : Prop extends Wired c where
  books : c.books = some { alive := c.held c.list, destroyed := 0 }

/-- The destructor has yet to dispose these nodes. -/
structure Emptying (block : Block) (c : Cache K V) (nodes : List Ptr) : Prop where
  list : c.list = []
  linked : ∀ p, c.hash.Linked p ↔ p ∈ nodes
  buckets : .buckets c.bucketPointer c.bucketCount = block
  books : c.books = some { alive := c.held nodes, destroyed := 0 }

section
variable {fs : Functors K U} {c c' : Cache K V} {p : Ptr}

theorem held_cons (c : Cache K V) (p : Ptr) (nodes : Multiset Ptr) :
    c.held (p ::ₘ nodes) = .node p 1 ::ₘ c.held nodes := by
  rw [held, held, Multiset.map_cons, Multiset.cons_swap]

theorem held_congr (hpointer : c'.bucketPointer = c.bucketPointer)
    (hcount : c'.bucketCount = c.bucketCount) (nodes : Multiset Ptr) :
    c'.held nodes = c.held nodes := by
  rw [held, held, hpointer, hcount]

theorem mem_held {nodes : List Ptr} : Block.node p 1 ∈ c.held nodes ↔ p ∈ nodes := by
  simp [held]

theorem Accounted.kept (h : Accounted c) : c.Kept := by
  refine ⟨_, h.books, by simp [held], fun p hp => ?_⟩
  rw [h.linked, or_self] at hp
  exact mem_held.mpr hp

theorem Emptying.kept {block : Block} {nodes : List Ptr} (h : Emptying block c nodes) : c.Kept := by
  refine ⟨_, h.books, by simp [held], fun p hp => ?_⟩
  rw [h.list, h.linked] at hp
  exact mem_held.mpr (hp.resolve_left List.not_mem_nil)

theorem create_accounted (timeout : Int64) (buckets : Ptr) :
    Accounted (create timeout buckets : Cache K V) := by
  have hempty : Ledger.books ([] : List (Ledger.Entry Block)) =
      some { alive := 0, destroyed := 0 } := rfl
  exact ⟨create_wired timeout buckets, Ledger.books_allocate hempty⟩

theorem link_accounted (h : Accounted c) {hs : BitVec 64} {node : Node K V}
    (hlink : link { c with ledger := c.ledger ++ [.allocateNode p] } p hs node = some c') :
    Accounted c' := by
  have hwired : Wired { c with ledger := c.ledger ++ [.allocateNode p] } :=
    ⟨h.linked, h.live, h.nodup⟩
  refine ⟨link_wired hwired hlink, ?_⟩
  have hlist : ((c.list ++ [p] : List Ptr) : Multiset Ptr) = p ::ₘ (c.list : Multiset Ptr) :=
    Multiset.coe_eq_coe.mpr List.perm_append_comm
  unfold link at hlink
  split at hlink
  · cases hlink
  · split at hlink <;> cases hlink
    have hbooks := Ledger.books_allocate (x := Block.node p 1) h.books
    rw [← held_cons, ← hlist] at hbooks
    rw [Cache.books, List.map_append]
    exact hbooks

theorem grow_accounted (h : Accounted c) (buckets : Ptr) : Accounted (c.grow buckets) := by
  refine ⟨grow_wired h.toWired buckets, ?_⟩
  rw [Cache.books, grow, List.map_append]
  exact Ledger.books_replace h.books

theorem Removed.accounted (hr : Removed c c' p) (h : Accounted c) (hmem : p ∈ c.list)
    (hpointer : c'.bucketPointer = c.bucketPointer)
    (hledger : c'.ledger = c.ledger ++ [.destroyNode p, .deallocateNode p 1]) : Accounted c' := by
  refine ⟨hr.wired h.toWired, ?_⟩
  have hcount : c'.bucketCount = c.bucketCount := by rw [bucketCount, hr.hash]; rfl
  have hlist : (c.list : Multiset Ptr) = p ::ₘ (c.list.erase p : Multiset Ptr) :=
    Multiset.coe_eq_coe.mpr (List.perm_cons_erase hmem)
  have hbooks := h.books
  rw [hlist, held_cons] at hbooks
  rw [Cache.books, hledger, List.map_append, held_congr hpointer hcount, hr.list]
  exact Ledger.books_release hbooks

theorem erase_accounted (h : Accounted c) (herase : c.erase p = some c') : Accounted c' := by
  have hr := erase_removed herase
  obtain ⟨node, hnode, rfl⟩ := Option.map_eq_some_iff.mp herase
  have hmem : p ∈ c.list := (h.live p).mp (by rw [hnode]; rfl)
  exact hr.accounted h hmem rfl rfl

theorem touch_accounted (h : Accounted c) {now : Int64} (htouch : c.touch now p = some c') :
    Accounted c' := by
  obtain ⟨_, ht⟩ := touch_touched htouch
  refine ⟨ht.wired h.toWired, ?_⟩
  obtain ⟨node, hnode, rfl⟩ := Option.map_eq_some_iff.mp htouch
  have hmem : p ∈ c.list := (h.live p).mp (by rw [hnode]; rfl)
  have hlist : ((c.list.erase p ++ [p] : List Ptr) : Multiset Ptr) = c.list :=
    Multiset.coe_eq_coe.mpr
      (List.perm_append_comm.trans (List.perm_cons_erase hmem).symm)
  have hbooks := h.books
  rw [← hlist] at hbooks
  exact hbooks

theorem insert_accounted (h : Accounted c) {now : Int64} {key : K} {value : V}
    {node buckets : Ptr} {res : Option (Ptr × Bool)}
    (hinsert : c.insert fs ⟨some node, true, some buckets⟩ now key value = some (res, c')) :
    Accounted c' := by
  rw [insert] at hinsert
  split at hinsert
  · cases hinsert
    exact h
  · obtain ⟨c₁, hlink, heq⟩ := Option.map_eq_some_iff.mp hinsert
    have h₁ := link_accounted h hlink
    split at heq
    · cases heq
      exact grow_accounted h₁ buckets
    · cases heq
      exact h₁

theorem clearExpired_accounted (h : Accounted c) {throws : List (K × V) → K × V → Bool}
    {now : Int64} {x : Expiry K V × Bool} (hclear : c.clearExpired now throws = some x) :
    Accounted x.1.cache := by
  refine clearExpired_keeps (fun c p rest hc hlist _ => ?_) h hclear
  have hmem : p ∈ c.list := hlist ▸ List.mem_cons_self
  exact (pop_removed hlist).accounted hc hmem rfl rfl

end

theorem disposeNext_emptying {block : Block} {c : Cache K V} {p : Ptr} {nodes : List Ptr}
    (h : Emptying block c (p :: nodes)) (hnodup : (p :: nodes).Nodup) :
    Emptying block (c.disposeNext p) nodes where
  list := h.list
  linked q := by
    have hout := (List.nodup_cons.mp hnodup).1
    change (c.hash.erase p).Linked q ↔ q ∈ nodes
    rw [Buckets.linked_erase, h.linked, List.mem_cons]
    constructor
    · rintro ⟨hne, hq⟩
      exact hq.resolve_left hne
    · exact fun hq => ⟨fun heq => hout (heq ▸ hq), .inr hq⟩
  buckets := h.buckets
  books := by
    have hbooks := h.books
    rw [← Multiset.cons_coe, held_cons] at hbooks
    rw [Cache.books, disposeNext, dispose, List.map_append]
    exact Ledger.books_release hbooks

theorem foldl_emptying {block : Block} {c : Cache K V} {pre post : List Ptr}
    (h : Emptying block c (pre ++ post)) (hnodup : (pre ++ post).Nodup) :
    Emptying block (pre.foldl disposeNext c) post := by
  induction pre generalizing c with
  | nil => exact h
  | cons p pre ih =>
    exact ih (disposeNext_emptying h hnodup) (List.nodup_cons.mp hnodup).2

theorem Accounted.emptying {c : Cache K V} (h : Accounted c) :
    Emptying (.buckets c.bucketPointer c.bucketCount) { c with list := [] } c.hash.elements where
  list := rfl
  linked p := c.hash.mem_elements.symm
  buckets := rfl
  books := by
    have hperm : (c.list : Multiset Ptr) = c.hash.elements :=
      Multiset.coe_eq_coe.mpr ((List.perm_ext_iff_of_nodup h.nodup c.hash.nodup_elements).mpr
        fun p => by rw [Buckets.mem_elements, h.linked])
    have hbooks := h.books
    rw [hperm] at hbooks
    exact hbooks

end Cache

theorem call_accounted {fs : Functors K U} {c c' : Cache K V} (h : c.Accounted) {op : Op K V U}
    {out : Out K V} (hcall : call fs c op = some (out, c')) : c'.Accounted := by
  cases op with
  | insert now key value node buckets =>
    obtain ⟨⟨res, c₁⟩, hinsert, hres⟩ := Option.bind_eq_some_iff.mp hcall
    obtain ⟨r, rfl, heq⟩ := Option.map_eq_some_iff.mp hres
    cases heq
    exact Cache.insert_accounted h hinsert
  | find key =>
    cases hcall
    exact h
  | erase it =>
    obtain ⟨c₁, herase, heq⟩ := Option.map_eq_some_iff.mp hcall
    cases heq
    exact Cache.erase_accounted h herase
  | touch now it =>
    obtain ⟨c₁, htouch, heq⟩ := Option.map_eq_some_iff.mp hcall
    cases heq
    exact Cache.touch_accounted h htouch
  | clearExpired now throws =>
    obtain ⟨x, hclear, heq⟩ := Option.map_eq_some_iff.mp hcall
    cases heq
    exact Cache.clearExpired_accounted h hclear

/-- What the life of a cache must do with memory: what is linked is held at all times, and after
the destructor everything has been destroyed and given back once. -/
structure ReturnsAll (fs : Functors K U) (timeout : Int64) (buckets : Ptr) (ops : List (Op K V U))
    (s : Session K V) : Prop where
  kept : ∀ t, Runs.Visits (Session.step fs) ⟨create timeout buckets, []⟩ ops t → t.cache.Kept
  destroying : ∀ pre, pre <+: s.cache.hash.elements →
    Cache.Kept (pre.foldl Cache.disposeNext { s.cache with list := [] })
  returned : s.cache.destroy.books = some .empty

/-- The books of every life balance but for the last array of buckets, which is never given
back. -/
theorem last_buckets_leak {fs : Functors K U} {timeout : Int64} {buckets : Ptr}
    {ops : List (Op K V U)} {s : Session K V}
    (hrun : Runs.exec (Session.step fs) ⟨create timeout buckets, []⟩ ops = some s) :
    (∀ t, Runs.Visits (Session.step fs) ⟨create timeout buckets, []⟩ ops t → t.cache.Kept) ∧
    (∀ pre, pre <+: s.cache.hash.elements →
      Cache.Kept (pre.foldl Cache.disposeNext { s.cache with list := [] })) ∧
    s.cache.destroy.books =
      some { alive := {.buckets s.cache.bucketPointer s.cache.bucketCount}, destroyed := 0 } ∧
    ¬ ReturnsAll fs timeout buckets ops s := by
  have hstep : ∀ (s : Session K V) op t, s.step fs op = some t →
      s.cache.Accounted → t.cache.Accounted := by
    intro s op t hstep h
    obtain ⟨r, hr, rfl⟩ := Option.map_eq_some_iff.mp hstep
    exact call_accounted h hr
  have hstart : (create timeout buckets : Cache K V).Accounted := Cache.create_accounted ..
  have h := Runs.exec_invariant hstep hrun hstart
  have hbooks : s.cache.destroy.books =
      some { alive := {.buckets s.cache.bucketPointer s.cache.bucketCount}, destroyed := 0 } := by
    have hempty := h.emptying
    have hnodup := s.cache.hash.nodup_elements
    rw [← List.append_nil s.cache.hash.elements] at hempty hnodup
    have hend := Cache.foldl_emptying hempty hnodup
    have hbooks := hend.books
    rw [Cache.held, hend.buckets] at hbooks
    exact hbooks
  refine ⟨fun t ht => ?_, fun pre hpre => ?_, hbooks, fun hall => ?_⟩
  · obtain ⟨es, -, ht⟩ := ht
    exact (Runs.exec_invariant hstep ht hstart).kept
  · obtain ⟨post, hpost⟩ := hpre
    have hnodup := s.cache.hash.nodup_elements
    have hempty := h.emptying
    rw [← hpost] at hempty hnodup
    exact (Cache.foldl_emptying hempty hnodup).kept
  · have hempty := hbooks.symm.trans hall.returned
    simp [Ledger.Books.empty] at hempty

def manyInserts : List (Op Nat Nat Nat) :=
  (List.range 17).map (fun k => .insert 0 k k (k + 1) (100 + k)) ++ [.insert 0 3 4 50 200]

theorem manyInserts_leak : ∃ s : Session Nat Nat,
    Runs.exec (Session.step natFunctors) ⟨create 10 99, []⟩ manyInserts = some s ∧
    s.cache.bucketPointer = 115 ∧ s.cache.bucketCount = 32 ∧
    s.cache.destroy.books = some { alive := {.buckets 115 32}, destroyed := 0 } := by
  obtain ⟨s, hs, hpointer, hcount⟩ : ∃ s : Session Nat Nat,
      Runs.exec (Session.step natFunctors) ⟨create 10 99, []⟩ manyInserts = some s ∧
        s.cache.bucketPointer = 115 ∧ s.cache.bucketCount = 32 := ⟨_, rfl, rfl, rfl⟩
  have hbooks := (last_buckets_leak hs).2.2.1
  rw [hpointer, hcount] at hbooks
  exact ⟨s, hs, hpointer, hcount, hbooks⟩

theorem empty_life_leaks : ¬ ReturnsAll (K := Nat) (V := Nat) natFunctors 10 99 []
    ⟨create 10 99, []⟩ := by
  intro hall
  have hbooks : Cache.books (create 10 99 : Cache Nat Nat) = some .empty := hall.returned
  have hstart := (Cache.create_accounted 10 99 : (create 10 99 : Cache Nat Nat).Accounted)
  have hempty := hstart.books.symm.trans hbooks
  simp [Ledger.Books.empty, Cache.held] at hempty

end Flyzero.LruCache
