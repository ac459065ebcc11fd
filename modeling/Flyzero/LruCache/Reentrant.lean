import Flyzero.Lib.UseOrder
import Flyzero.LruCache.Refinement

/-! `clear_expired` with a callback that uses the cache it is called for. -/
namespace Flyzero.LruCache
variable {K V U : Type*}

inductive Use (K V U : Type*) where
  | find (key : U)
  | insert (now : Int64) (key : K) (value : V) (node buckets : Ptr)
  | touch (now : Int64) (it : Ptr)

def Use.op : Use K V U → Op K V U
  | .find key => .find key
  | .insert now key value node buckets => .insert now key value node buckets
  | .touch now it => .touch now it

def Use.moved : Use K V U → Out K V → List Ptr
  | .insert .., .inserted it true => [it]
  | .touch _ it, _ => [it]
  | _, _ => []

/-- The calls one after another, with all nodes they put at the end of the list; a call out of turn
is not made. -/
def useAll (fs : Functors K U) : Cache K V → List (Use K V U) → Cache K V × List Ptr
  | c, [] => (c, [])
  | c, u :: us =>
    match call fs c u.op with
    | none => useAll fs c us
    | some (out, c) =>
      let (c, log) := useAll fs c us
      (c, u.moved out ++ log)

abbrev Uses (K V U : Type*) := List (K × V) → Cache K V → K → V → List (Use K V U)

def reentrant (fs : Functors K U) (fn : Uses K V U) : Callback K V :=
  fun calls c key value => (false, (useAll fs c (fn calls c key value)).1)

def expireBody (fs : Functors K U) (fn : Uses K V U) (now : Int64) :
    Expiry K V → Expiry K V ⊕ Option (Expiry K V × Bool) := expireRound (reentrant fs fn) now

def Cache.expiry (c : Cache K V) : Expiry K V := { cache := c, calls := [], count := 0 }

section Rounds
variable (fs : Functors K U) (fn : Uses K V U) (now : Int64)

/-- The node that goes from the list is the one whose key and value were passed. -/
def RemovesPassed (s : Expiry K V) : Prop :=
  ∀ p node, s.cache.list.head? = some p → s.cache.nodes p = some node → ¬ node.deadline > now →
    (useAll fs s.cache (fn s.calls s.cache node.key node.value)).1.list.head? = some p

/-- If the callback uses the node it is called for, it uses all others after it. -/
def Considerate (s : Expiry K V) : Prop :=
  ∀ p node, s.cache.list.head? = some p → s.cache.nodes p = some node → ¬ node.deadline > now →
    UseOrder.Overtaken p s.cache.list
      (useAll fs s.cache (fn s.calls s.cache node.key node.value)).2

structure Consistent (c : Cache K V) (r : Option (Expiry K V × Bool)) : Prop where
  returned : ∃ s, r = some (s, false) ∧ s.cache.Wired
  removed : ∀ s, Loop.Visits (expireBody fs fn now) c.expiry s → RemovesPassed fs fn now s

end Rounds

/-- The caches of any calls, also of callbacks that were considerate. -/
inductive Reached (fs : Functors K U) : Cache K V → Prop
  | create (timeout : Int64) (buckets : Ptr) : Reached fs (create timeout buckets)
  | call {c d : Cache K V} {op : Op K V U} {out : Out K V} :
    Reached fs c → call fs c op = some (out, d) → Reached fs d
  | expire {c : Cache K V} {fn : Uses K V U} {now : Int64} {s : Expiry K V} {threw : Bool} :
    Reached fs c → Loop.Returns (expireBody fs fn now) c.expiry (some (s, threw)) →
    (∀ s, Loop.Visits (expireBody fs fn now) c.expiry s → Considerate fs fn now s) →
    Reached fs s.cache

section
variable {fs : Functors K U} {fn : Uses K V U} {now : Int64} {c d : Cache K V} {s t : Expiry K V}

theorem use_spec (hfs : fs.Consistent) (h : c.Inv fs) (u : Use K V U) {out : Out K V}
    (hcall : call fs c u.op = some (out, d)) :
    d.Inv fs ∧ d.list = UseOrder.uses c.list (u.moved out) := by
  obtain ⟨hmap, hinv⟩ := call_mirrors hfs h u.op
  rw [hcall] at hmap hinv
  have hd : d.Inv fs := (hinv _ rfl).1
  have hlist : d.list = d.entries.map (·.it) := hd.it_entries.symm
  have hits := h.it_entries
  refine ⟨hd, ?_⟩
  cases u with
  | find key =>
    obtain ⟨hout, hes⟩ := Prod.mk.inj (Option.some.inj hmap)
    rw [hlist, show d.entries = c.entries from hes, hits]
    rfl
  | insert now key value node buckets =>
    rw [Use.op, Recency.call, hits] at hmap
    split at hmap
    · obtain ⟨hout, hes⟩ := Prod.mk.inj (Option.some.inj hmap)
      rw [hlist, show d.entries = c.entries from hes, hits, show out = _ from hout]
      rfl
    · split at hmap
      · cases hmap
      · rename_i hnode
        obtain ⟨hout, hes⟩ := Prod.mk.inj (Option.some.inj hmap)
        rw [hlist, show d.entries = _ from hes, List.map_append, hits, show out = _ from hout]
        change c.list ++ [node] = c.list.erase node ++ [node]
        rw [List.erase_of_not_mem hnode]
  | touch now it =>
    obtain ⟨e, he, heq⟩ := Option.map_eq_some_iff.mp hmap.symm
    obtain ⟨hout, hes⟩ := Prod.mk.inj heq
    have hit : e.it = it := by simpa using List.find?_some he
    rw [hlist, ← show _ = d.entries from hes, List.map_append]
    change _ = c.list.erase it ++ [it]
    rw [h.nodup.erase_eq_filter, ← hits, List.filter_map, List.map_singleton, hit]
    simp [Function.comp_def, bne, beq_eq_decide]

theorem useAll_spec (hfs : fs.Consistent) (h : c.Inv fs) (us : List (Use K V U)) :
    (useAll fs c us).1.Inv fs ∧
      (useAll fs c us).1.list = UseOrder.uses c.list (useAll fs c us).2 := by
  induction us generalizing c with
  | nil => exact ⟨h, rfl⟩
  | cons u us ih =>
    rw [useAll]
    cases hcall : call fs c u.op with
    | none => exact ih h
    | some r =>
      obtain ⟨hd, hlist⟩ := use_spec hfs h u hcall
      obtain ⟨hinv, hrest⟩ := ih hd
      refine ⟨hinv, ?_⟩
      rw [hrest, hlist, UseOrder.uses_append]

theorem head?_eq_some {l : List Ptr} {p : Ptr} (h : l.head? = some p) : ∃ rest, l = p :: rest := by
  cases l with
  | nil => cases h
  | cons q rest => exact ⟨rest, congrArg (· :: rest) (Option.some.inj h)⟩

/-- The front is what `pop_front` removes exactly if the callback is considerate. -/
theorem removesPassed_iff (hfs : fs.Consistent) (h : s.cache.Inv fs) :
    RemovesPassed fs fn now s ↔ Considerate fs fn now s := by
  refine forall_congr' fun p => forall_congr' fun node => forall_congr' fun hhead =>
    forall_congr' fun _ => forall_congr' fun _ => ?_
  obtain ⟨-, hlist⟩ := useAll_spec hfs h (fn s.calls s.cache node.key node.value)
  obtain ⟨rest, hrest⟩ := head?_eq_some hhead
  have hnodup : (p :: rest).Nodup := hrest ▸ h.nodup
  rw [hlist, hrest]
  exact UseOrder.head?_uses hnodup

theorem expireBody_cases (hfs : fs.Consistent) (h : s.cache.Inv fs) :
    expireBody fs fn now s = .inr (some (s, false)) ∨
    ∃ p node, s.cache.list.head? = some p ∧ s.cache.nodes p = some node ∧ ¬ node.deadline > now ∧
      ∃ c calls, c = (useAll fs s.cache (fn s.calls s.cache node.key node.value)).1 ∧
        expireBody fs fn now s = .inl
          { cache := { c with hash := c.hash.erase p, list := c.list.tail }.dispose p
            calls, count := s.count + 1 } := by
  rw [expireBody, expireRound]
  cases hlist : s.cache.list with
  | nil => exact .inl rfl
  | cons p rest =>
    obtain ⟨node, hnode⟩ := Option.isSome_iff_exists.mp ((h.live p).mpr (hlist ▸ List.mem_cons_self))
    simp only [hnode, reentrant]
    by_cases hlate : node.deadline > now
    · exact .inl (if_pos hlate)
    · refine .inr ⟨p, node, rfl, hnode, hlate, _, s.calls ++ [(node.key, node.value)], rfl, ?_⟩
      obtain ⟨hinv, huses⟩ := useAll_spec hfs h (fn s.calls s.cache node.key node.value)
      have hmem : p ∈ (useAll fs s.cache (fn s.calls s.cache node.key node.value)).1.list := by
        rw [huses, UseOrder.mem_uses h.nodup, hlist]
        exact .inl List.mem_cons_self
      obtain ⟨node', hnode'⟩ := Option.isSome_iff_exists.mp ((hinv.live p).mpr hmem)
      simp only [if_neg hlate, Bool.false_eq_true, if_false, hnode']

theorem expireBody_inv (hfs : fs.Consistent) (h : s.cache.Inv fs)
    (hremoves : RemovesPassed fs fn now s) (hnext : expireBody fs fn now s = .inl t) :
    t.cache.Inv fs := by
  rcases expireBody_cases hfs h with hleave | ⟨p, node, hhead, hnode, hdue, d, calls, hd, hround⟩
  · cases hleave.symm.trans hnext
  · cases hround.symm.trans hnext
    obtain ⟨hinv, -⟩ := useAll_spec hfs h (fn s.calls s.cache node.key node.value)
    rw [← hd] at hinv
    obtain ⟨rest, hlist⟩ := head?_eq_some (hd ▸ hremoves p node hhead hnode hdue)
    exact (Cache.pop_removed hlist).inv hinv

theorem visits_inv (hfs : fs.Consistent) (h : c.Inv fs)
    (hremoves : ∀ s, Loop.Visits (expireBody fs fn now) c.expiry s → RemovesPassed fs fn now s)
    (hvisits : Loop.Visits (expireBody fs fn now) c.expiry s) : s.cache.Inv fs :=
  hvisits.invariant h fun _ _ ht hinv hnext => expireBody_inv hfs hinv (hremoves _ ht) hnext

theorem considerate_removes (hfs : fs.Consistent) (h : c.Inv fs)
    (hall : ∀ s, Loop.Visits (expireBody fs fn now) c.expiry s → Considerate fs fn now s)
    (hvisits : Loop.Visits (expireBody fs fn now) c.expiry s) : RemovesPassed fs fn now s := by
  have hinv : s.cache.Inv fs := by
    apply hvisits.invariant h
    intro t u ht hinv hnext
    exact expireBody_inv hfs hinv ((removesPassed_iff hfs hinv).mpr (hall t ht)) hnext
  exact (removesPassed_iff hfs hinv).mpr (hall s hvisits)

theorem returns_inv (hfs : fs.Consistent) (h : c.Inv fs)
    (hremoves : ∀ s, Loop.Visits (expireBody fs fn now) c.expiry s → RemovesPassed fs fn now s)
    {r : Option (Expiry K V × Bool)} (hreturns : Loop.Returns (expireBody fs fn now) c.expiry r) :
    ∃ s, r = some (s, false) ∧ s.cache.Inv fs := by
  obtain ⟨s, hvisits, hleave⟩ := hreturns.last
  have hinv := visits_inv hfs h hremoves hvisits
  rcases expireBody_cases hfs hinv with hround | ⟨p, node, -, -, -, d, calls, -, hround⟩
  · exact ⟨s, Sum.inr.inj (hleave.symm.trans hround), hinv⟩
  · cases hround.symm.trans hleave

theorem Reached.inv (hfs : fs.Consistent) (h : Reached fs c) : c.Inv fs := by
  induction h with
  | create timeout buckets => exact Cache.create_inv fs timeout buckets
  | call _ hcall ih => exact ((call_mirrors hfs ih _).2 _ hcall).1
  | expire _ hreturns hall ih =>
    obtain ⟨s, heq, hinv⟩ := returns_inv hfs ih (fun _ => considerate_removes hfs ih hall) hreturns
    cases heq
    exact hinv

theorem Reached.run {s t : Session K V} {ops : List (Op K V U)} (h : Reached fs s.cache)
    (hrun : Runs.exec (Session.step fs) s ops = some t) : Reached fs t.cache := by
  have hstep : ∀ (s : Session K V) (op : Op K V U) t, s.step fs op = some t →
      Reached fs s.cache → Reached fs t.cache := by
    intro s op t hstep hs
    obtain ⟨r, hr, rfl⟩ := Option.map_eq_some_iff.mp hstep
    exact hs.call hr
  exact Runs.exec_invariant hstep hrun h

end

/-- The front is removed after the callback, whatever node it is by then. -/
theorem consistent_iff {fs : Functors K U} (hfs : fs.Consistent) {c : Cache K V}
    (h : Reached fs c) (fn : Uses K V U) (now : Int64) {r : Option (Expiry K V × Bool)}
    (hreturns : Loop.Returns (expireBody fs fn now) c.expiry r) :
    Consistent fs fn now c r ↔
      ∀ s, Loop.Visits (expireBody fs fn now) c.expiry s → Considerate fs fn now s := by
  have hinv := h.inv hfs
  constructor
  · intro hconsistent s hvisits
    have hs := visits_inv hfs hinv hconsistent.removed hvisits
    exact (removesPassed_iff hfs hs).mp (hconsistent.removed s hvisits)
  · intro hall
    have hremoves := fun s => considerate_removes (s := s) hfs hinv hall
    obtain ⟨s, hr, hs⟩ := returns_inv hfs hinv hremoves hreturns
    exact ⟨⟨s, hr, hs.toCoupled.wired⟩, hremoves⟩

def threeEntries : List (Op Nat Nat Nat) :=
  [.insert 0 7 70 1 100, .insert 5 8 80 2 100, .insert 6 9 90 3 100]

def touchAll : Uses Nat Nat Nat := fun _ _ _ _ => [.find 7, .touch 12 1, .touch 12 2, .touch 12 3]

theorem touchAll_consistent : ∃ s r,
    Runs.exec (Session.step natFunctors) ⟨create 10 99, []⟩ threeEntries = some s ∧
    Loop.Returns (expireBody natFunctors touchAll 12) s.cache.expiry (some (r, false)) ∧
    r.cache.list = [2, 3] ∧ Consistent natFunctors touchAll 12 s.cache (some (r, false)) := by
  obtain ⟨s, r, hs, hround, hleave, hlist, hlog, hrest, hlate⟩ : ∃ s r,
      Runs.exec (Session.step natFunctors) ⟨create 10 99, []⟩ threeEntries = some s ∧
      expireBody natFunctors touchAll 12 s.cache.expiry = .inl r ∧
      expireBody natFunctors touchAll 12 r = .inr (some (r, false)) ∧
      s.cache.list = [1, 2, 3] ∧
      (useAll natFunctors s.cache (touchAll [] s.cache 7 70)).2 = [1, 2, 3] ∧
      r.cache.list = [2, 3] ∧ r.cache.nodes 2 = some ⟨22, 8, 80⟩ :=
    ⟨_, _, rfl, rfl, rfl, rfl, rfl, rfl, rfl⟩
  have hreturns : Loop.Returns (expireBody natFunctors touchAll 12) s.cache.expiry
      (some (r, false)) := (Loop.Returns.leave hleave).next hround
  have hreached : Reached natFunctors s.cache := (Reached.create 10 99).run hs
  refine ⟨s, r, hs, hreturns, hrest, ?_⟩
  refine (consistent_iff natFunctors_consistent hreached touchAll 12 hreturns).mpr ?_
  intro t hvisits p node hhead hnode hdue
  rcases Loop.visits_iff.mp hvisits with rfl | ⟨u, hu, hvisits⟩
  · have hfront : 1 = p := Option.some.inj (by rw [← hhead]; exact congrArg List.head? hlist.symm)
    subst hfront
    change UseOrder.Overtaken 1 s.cache.list
      (useAll natFunctors s.cache (touchAll [] s.cache 7 70)).2
    rw [hlist, hlog]
    exact fun _ => ⟨[], [2, 3], rfl, by decide, by simp⟩
  · cases hround.symm.trans hu
    rcases Loop.visits_iff.mp hvisits with rfl | ⟨v, hv, -⟩
    · rw [hrest] at hhead
      cases hhead
      cases hlate.symm.trans hnode
      exact absurd (by decide) hdue
    · cases hleave.symm.trans hv

def touchFront : Uses Nat Nat Nat := fun _ _ _ _ => [.find 7, .touch 12 1]

/-- The second entry leaves the list and stays in the hash table, and the first, which is destroyed,
stays in the list. -/
theorem touchFront_inconsistent : ∃ s r,
    Runs.exec (Session.step natFunctors) ⟨create 10 99, []⟩ threeEntries = some s ∧
    Loop.Returns (expireBody natFunctors touchFront 12) s.cache.expiry (some (r, false)) ∧
    r.calls = [(7, 70)] ∧ r.cache.list = [3, 1] ∧ r.cache.hash.elements = [2, 3] ∧
    r.cache.nodes 1 = none ∧ ¬ Consistent natFunctors touchFront 12 s.cache (some (r, false)) := by
  obtain ⟨s, r, hs, hreturns, hcalls, hlist, hhash, hnode⟩ : ∃ s r,
      Runs.exec (Session.step natFunctors) ⟨create 10 99, []⟩ threeEntries = some s ∧
      Loop.Returns (expireBody natFunctors touchFront 12) s.cache.expiry (some (r, false)) ∧
      r.calls = [(7, 70)] ∧ r.cache.list = [3, 1] ∧ r.cache.hash.elements = [2, 3] ∧
      r.cache.nodes 1 = none := ⟨_, _, rfl, ⟨2, rfl⟩, rfl, rfl, rfl, rfl⟩
  refine ⟨s, r, hs, hreturns, hcalls, hlist, hhash, hnode, fun hconsistent => ?_⟩
  obtain ⟨_, heq, hwired⟩ := hconsistent.returned
  cases heq
  have hlive := (hwired.live 1).mpr (hlist ▸ by decide)
  rw [hnode] at hlive
  cases hlive

end Flyzero.LruCache
