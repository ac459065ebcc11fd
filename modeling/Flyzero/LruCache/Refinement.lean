import Flyzero.Lib.Runs
import Flyzero.LruCache.Invariant

/-! An `LruCache` is the list of its entries by last use. -/
namespace Flyzero.LruCache
variable {K V U : Type*}

namespace Recency

def expire (now : Int64) (throws : List (K × V) → K × V → Bool) (calls : List (K × V))
    (count : Nat) : List (Entry K V) → Out K V × List (Entry K V)
  | [] => (.cleared calls count, [])
  | e :: es =>
    if e.deadline > now then (.cleared calls count, e :: es)
    else if throws calls (e.key, e.value) then (.threw (calls ++ [(e.key, e.value)]), e :: es)
    else expire now throws (calls ++ [(e.key, e.value)]) (count + 1) es

def call (fs : Functors K U) (timeout : Int64) (es : List (Entry K V)) :
    Op K V U → Option (Out K V × List (Entry K V))
  | .insert now key value node _ =>
    match es.find? fun e => fs.equal key e.key with
    | some e => some (.inserted e.it false, es)
    | none =>
      if node ∈ es.map (·.it) then none
      else some (.inserted node true, es ++ [{ it := node, key, value, deadline := now + timeout }])
  | .find key => some (.found ((es.find? fun e => fs.equalTo key e.key).map (·.it)), es)
  | .erase it =>
    if it ∈ es.map (·.it) then some (.done, es.filter fun e => e.it ≠ it) else none
  | .touch now it =>
    (es.find? fun e => e.it = it).map fun e =>
      (.done, es.filter (fun e => e.it ≠ it) ++ [{ e with deadline := now + timeout }])
  | .clearExpired now throws => some (expire now throws [] 0 es)

end Recency

def Expiry.out (s : Expiry K V) (threw : Bool) : Out K V :=
  if threw then .threw s.calls else .cleared s.calls s.count

namespace Cache
variable {fs : Functors K U} {c : Cache K V}

theorem pop_removed {p : Ptr} {rest : List Ptr} (hlist : c.list = p :: rest) :
    Removed c ({ c with hash := c.hash.erase p, list := c.list.tail }.dispose p) p := by
  refine ⟨rfl, ?_, rfl, rfl⟩
  rw [hlist, List.erase_cons_head]
  rfl

theorem expireRound_nil {throws : List (K × V) → K × V → Bool} {now : Int64} {s : Expiry K V}
    (hlist : s.cache.list = []) :
    expireRound (quiet throws) now s = .inr (some (s, false)) := by
  rw [expireRound, hlist]

theorem expireRound_cons {throws : List (K × V) → K × V → Bool} {now : Int64} {s : Expiry K V}
    {p : Ptr} {rest : List Ptr} {node : Node K V} (hlist : s.cache.list = p :: rest)
    (hnode : s.cache.nodes p = some node) :
    expireRound (quiet throws) now s =
      if node.deadline > now then .inr (some (s, false))
      else if throws s.calls (node.key, node.value) then
        .inr (some ({ s with calls := s.calls ++ [(node.key, node.value)] }, true))
      else
        .inl { cache :=
                 { s.cache with hash := s.cache.hash.erase p, list := s.cache.list.tail }.dispose p
               calls := s.calls ++ [(node.key, node.value)]
               count := s.count + 1 } := by
  simp only [expireRound, quiet, hlist, hnode]

/-- With a round for every entry to spare, the loop ends where the abstract list says. -/
theorem run_expire {throws : List (K × V) → K × V → Bool} {now : Int64} (n : Nat) (h : Inv fs c)
    (hn : c.list.length < n) (calls : List (K × V)) (count : Nat) :
    ∃ s threw, Loop.run (expireRound (quiet throws) now) n { cache := c, calls, count } =
        some (some (s, threw)) ∧
      (s.out threw, s.cache.entries) = Recency.expire now throws calls count c.entries ∧
      Inv fs s.cache ∧ s.cache.timeout = c.timeout := by
  induction n generalizing c calls count with
  | zero => exact absurd hn (Nat.not_lt_zero _)
  | succ n ih =>
    cases hlist : c.list with
    | nil =>
      have hentries : c.entries = [] := by rw [entries, hlist, List.filterMap_nil]
      refine ⟨{ cache := c, calls, count }, false, ?_, ?_, h, rfl⟩
      · rw [Loop.run, expireRound_nil hlist]
      · rw [hentries, Recency.expire]
        rfl
    | cons p rest =>
      obtain ⟨node, hnode⟩ := Option.isSome_iff_exists.mp
        ((h.live p).mpr (hlist ▸ List.mem_cons_self))
      have hentry : c.entry p = some ⟨p, node.key, node.value, node.deadline⟩ := by
        rw [entry, hnode, Option.map_some]
      have hentries : c.entries = ⟨p, node.key, node.value, node.deadline⟩ ::
          rest.filterMap c.entry := by
        rw [entries, hlist, List.filterMap_cons_some hentry]
      rw [Loop.run, expireRound_cons hlist hnode, hentries, Recency.expire]
      by_cases hlate : node.deadline > now
      · simp only [if_pos hlate]
        exact ⟨_, false, rfl, by rw [← hentries]; rfl, h, rfl⟩
      by_cases hthrows : throws calls (node.key, node.value) = true
      · simp only [if_neg hlate, if_pos hthrows]
        exact ⟨_, true, rfl, by rw [← hentries]; rfl, h, rfl⟩
      · simp only [if_neg hlate, if_neg hthrows]
        have hpop := pop_removed hlist
        have hrest : rest.filterMap c.entry = c.entries.filter fun e => e.it ≠ p := by
          rw [entries, ← filterMap_erase (fun _ _ => rfl) h.nodup, hlist, List.erase_cons_head]
        rw [hrest, ← hpop.entries h.toCoupled]
        have hlen : c.list.tail.length < n := by
          rw [hlist] at hn ⊢
          exact Nat.lt_of_succ_lt_succ hn
        exact ih (hpop.inv h) hlen _ _

theorem expireRound_dead {throws : List (K × V) → K × V → Bool} {now : Int64} {s : Expiry K V}
    {p : Ptr} {rest : List Ptr} (hlist : s.cache.list = p :: rest)
    (hnode : s.cache.nodes p = none) : expireRound (quiet throws) now s = .inr none := by
  simp only [expireRound, hlist, hnode]

theorem expireRound_next {throws : List (K × V) → K × V → Bool} {now : Int64} {s t : Expiry K V}
    (hround : expireRound (quiet throws) now s = .inl t) :
    ∃ p rest, s.cache.list = p :: rest ∧ (s.cache.nodes p).isSome ∧
      t.cache = { s.cache with
        hash := s.cache.hash.erase p, list := s.cache.list.tail }.dispose p := by
  cases hlist : s.cache.list with
  | nil =>
    rw [expireRound_nil hlist] at hround
    cases hround
  | cons p rest =>
    cases hnode : s.cache.nodes p with
    | none =>
      rw [expireRound_dead hlist hnode] at hround
      cases hround
    | some node =>
      rw [expireRound_cons hlist hnode, hlist] at hround
      split at hround
      · cases hround
      · split at hround
        · cases hround
        · cases hround
          exact ⟨p, rest, rfl, by rw [hnode]; rfl, rfl⟩

theorem expireRound_leaves {throws : List (K × V) → K × V → Bool} {now : Int64} {s : Expiry K V}
    {r : Option (Expiry K V × Bool)} (hround : expireRound (quiet throws) now s = .inr r) :
    ∀ x ∈ r, x.1.cache = s.cache := by
  cases hlist : s.cache.list with
  | nil =>
    rw [expireRound_nil hlist] at hround
    cases hround
    simp
  | cons p rest =>
    cases hnode : s.cache.nodes p with
    | none =>
      rw [expireRound_dead hlist hnode] at hround
      cases hround
      exact nofun
    | some node =>
      rw [expireRound_cons hlist hnode] at hround
      split at hround
      · cases hround
        simp
      · split at hround
        · cases hround
          simp
        · cases hround

theorem clearExpired_keeps {P : Cache K V → Prop}
    (hpop : ∀ (c : Cache K V) p rest, P c → c.list = p :: rest → (c.nodes p).isSome →
      P ({ c with hash := c.hash.erase p, list := c.list.tail }.dispose p)) {now : Int64}
    {throws : List (K × V) → K × V → Bool} {x : Expiry K V × Bool} (h : P c)
    (hclear : c.clearExpired now throws = some x) : P x.1.cache := by
  have hrun := Option.join_eq_some_iff.mp hclear
  have hnext : ∀ s t : Expiry K V, P s.cache →
      expireRound (quiet throws) now s = .inl t → P t.cache := by
    intro s t hs hround
    obtain ⟨p, rest, hlist, hlive, heq⟩ := expireRound_next hround
    exact heq ▸ hpop s.cache p rest hs hlist hlive
  have hleave : ∀ (s : Expiry K V) r, P s.cache →
      expireRound (quiet throws) now s = .inr r → ∀ x ∈ r, P x.1.cache := by
    intro s r hs hround x hx
    exact expireRound_leaves hround x hx ▸ hs
  exact Loop.run_post hnext hleave hrun h x rfl

theorem insertCheck_eq (hfs : fs.Consistent) (h : Coupled fs c) (key : K) :
    c.hash.find? (fs.hash key) (c.keyed (fs.equal key)) =
      (c.entries.find? fun e => fs.equal key e.key).map (·.it) :=
  h.find?_hash (fun k hk => (hfs.hash key k hk).symm)
    fun a b ha hb => hfs.trans a key b (hfs.symm key a ha) hb

theorem insert_found (hfs : fs.Consistent) (h : Coupled fs c) {key : K} {e : Entry K V}
    (he : (c.entries.find? fun e => fs.equal key e.key) = some e) (supply : Supply) (now : Int64)
    (value : V) : c.insert fs supply now key value = some (some (e.it, false), c) := by
  rw [insert, insertCheck_eq hfs h key, he]
  rfl

theorem insert_used (hfs : fs.Consistent) (h : Coupled fs c) {key : K}
    (he : (c.entries.find? fun e => fs.equal key e.key) = none) {node : Ptr} (hnode : node ∈ c.list)
    (buckets : Option Ptr) (now : Int64) (value : V) :
    c.insert fs ⟨some node, true, buckets⟩ now key value = none := by
  have hc : Coupled fs { c with ledger := c.ledger ++ [.allocateNode node] } :=
    ⟨h.linked, h.live, h.nodup, h.hashes, h.distinct, h.buckets⟩
  rw [insert, insertCheck_eq hfs h key, he]
  simp only [Option.map_none, if_true, (link_eq_none hc).mpr hnode]

/-- The cache between the two allocations of a call. -/
theorem insert_link (hfs : fs.Consistent) (h : Coupled fs c) {key : K}
    (he : (c.entries.find? fun e => fs.equal key e.key) = none) {node : Ptr} (hnode : node ∉ c.list)
    (now : Int64) (value : V) :
    ∃ c₁ : Cache K V, Coupled fs c₁ ∧
      c₁.entries = c.entries ++ [⟨node, key, value, now + c.timeout⟩] ∧
      c₁.size = c.size + 1 ∧ c₁.bucketCount = c.bucketCount ∧ c₁.timeout = c.timeout ∧
      ∀ buckets, c.insert fs ⟨some node, true, buckets⟩ now key value =
        some (if c.size + 1 ≥ c.bucketCount then
            buckets.elim (none, c₁) fun b => (some (node, true), c₁.grow b)
          else (some (node, true), c₁)) := by
  have hc : Coupled fs { c with ledger := c.ledger ++ [.allocateNode node] } :=
    ⟨h.linked, h.live, h.nodup, h.hashes, h.distinct, h.buckets⟩
  obtain ⟨c₁, hlink⟩ : ∃ c₁, link { c with ledger := c.ledger ++ [.allocateNode node] } node
      (fs.hash key) { deadline := now + c.timeout, key, value } = some c₁ :=
    Option.ne_none_iff_exists'.mp ((link_eq_none hc).not.mpr hnode)
  have hentries := link_entries hc hlink
  have habsent : ∀ q n, c.nodes q = some n → fs.equal key n.key = false ∧
      fs.equal n.key key = false := by
    intro q n hn
    have hmem : ⟨q, n.key, n.value, n.deadline⟩ ∈ c.entries :=
      mem_entries.mpr ⟨(h.live q).mp (by rw [hn]; rfl), hn⟩
    have hne : ¬ fs.equal key n.key = true := List.find?_eq_none.mp he _ hmem
    exact ⟨by simpa using hne, by simpa using mt (hfs.symm n.key key) hne⟩
  have hc₁ := link_coupled hc hlink habsent
  obtain ⟨_, -, hlist, hhash, htimeout⟩ := link_fields hlink
  have hsize : c₁.size = c.size + 1 := by
    rw [size, hlist, List.length_append, List.length_singleton, size]
  have hcount : c₁.bucketCount = c.bucketCount := by
    rw [bucketCount, hhash]
    rfl
  refine ⟨c₁, hc₁, hentries, hsize, hcount, htimeout, fun buckets => ?_⟩
  rw [insert, insertCheck_eq hfs h key, he]
  simp only [Option.map_none, if_true, hlink, Option.map_some]
  rw [hsize, hcount]
  cases buckets <;> rfl

theorem insert_new (hfs : fs.Consistent) (h : Inv fs c) {key : K}
    (he : (c.entries.find? fun e => fs.equal key e.key) = none) {node : Ptr} (hnode : node ∉ c.list)
    (buckets : Ptr) (now : Int64) (value : V) :
    ∃ c', c.insert fs ⟨some node, true, some buckets⟩ now key value = some (some (node, true), c') ∧
      c'.entries = c.entries ++ [⟨node, key, value, now + c.timeout⟩] ∧ Inv fs c' ∧
      c'.timeout = c.timeout := by
  have hroom := h.room
  obtain ⟨c₁, hc₁, hentries, hsize, hcount, htimeout, hinsert⟩ :=
    insert_link hfs h.toCoupled he hnode now value
  rw [hinsert]
  by_cases hfull : c.size + 1 ≥ c.bucketCount
  · rw [if_pos hfull]
    exact ⟨_, rfl, hentries, grow_inv hc₁ (by omega) buckets, htimeout⟩
  · rw [if_neg hfull]
    exact ⟨_, rfl, hentries, ⟨hc₁, by omega⟩, htimeout⟩

end Cache

/-- What a call leaves behind. -/
def Mirrors (fs : Functors K U) (timeout : Int64) (r : Option (Out K V × Cache K V))
    (r' : Option (Out K V × List (Entry K V))) : Prop :=
  r.map (fun x => (x.1, x.2.entries)) = r' ∧ ∀ x ∈ r, x.2.Inv fs ∧ x.2.timeout = timeout

section
variable {fs : Functors K U} {c : Cache K V}

theorem mirrors_none {timeout : Int64} :
    Mirrors fs timeout (none : Option (Out K V × Cache K V)) none :=
  ⟨rfl, nofun⟩

theorem mirrors_some {timeout : Int64} {o : Out K V} {es : List (Entry K V)}
    (hes : c.entries = es) (h : c.Inv fs) (ht : c.timeout = timeout) :
    Mirrors fs timeout (some (o, c)) (some (o, es)) := by
  refine ⟨by rw [Option.map_some, hes], ?_⟩
  rintro x hx
  obtain rfl := Option.some.inj hx
  exact ⟨h, ht⟩

theorem call_mirrors (hfs : fs.Consistent) (h : c.Inv fs) (op : Op K V U) :
    Mirrors fs c.timeout (call fs c op) (Recency.call fs c.timeout c.entries op) := by
  have hits := h.it_entries
  cases op with
  | insert now key value node buckets =>
    rw [call, Recency.call, hits]
    cases he : c.entries.find? fun e => fs.equal key e.key with
    | some e =>
      rw [Cache.insert_found hfs h.toCoupled he]
      exact mirrors_some rfl h rfl
    | none =>
      by_cases hnode : node ∈ c.list
      · rw [Cache.insert_used hfs h.toCoupled he hnode]
        simp only [if_pos hnode]
        exact mirrors_none
      · obtain ⟨c', hc', hes, hinv, ht⟩ := Cache.insert_new hfs h he hnode buckets now value
        rw [hc']
        simp only [if_neg hnode]
        exact mirrors_some hes hinv ht
  | find key =>
    have hfind : c.find fs key = (c.entries.find? fun e => fs.equalTo key e.key).map (·.it) :=
      h.find?_hash (fun k hk => (hfs.hashOf key k hk).symm) (hfs.unique key)
    rw [call, Recency.call, hfind]
    exact mirrors_some rfl h rfl
  | erase it =>
    rw [call, Recency.call, hits]
    cases hnode : c.nodes it with
    | none =>
      have hmem : it ∉ c.list := by rw [← h.live, hnode]; exact Bool.false_ne_true
      rw [Cache.erase, hnode, if_neg hmem]
      exact mirrors_none
    | some node =>
      have hmem : it ∈ c.list := by rw [← h.live, hnode]; rfl
      obtain ⟨c', hc'⟩ : ∃ c', c.erase it = some c' := ⟨_, by rw [Cache.erase, hnode]; rfl⟩
      have hr := Cache.erase_removed hc'
      rw [hc', if_pos hmem]
      exact mirrors_some (hr.entries h.toCoupled) (hr.inv h) hr.timeout
  | touch now it =>
    rw [call, Recency.call, h.find?_it, Cache.entry]
    cases hnode : c.nodes it with
    | none =>
      rw [Cache.touch, hnode]
      exact mirrors_none
    | some node =>
      obtain ⟨c', hc'⟩ : ∃ c', c.touch now it = some c' := ⟨_, by rw [Cache.touch, hnode]; rfl⟩
      obtain ⟨node', ht⟩ := Cache.touch_touched hc'
      have hsame := ht.live
      rw [hnode] at hsame
      obtain rfl := Option.some.inj hsame
      rw [hc']
      exact mirrors_some (ht.entries h.toCoupled) (ht.inv h) ht.timeout
  | clearExpired now throws =>
    obtain ⟨s, threw, hrun, hexpire, hinv, ht⟩ :=
      Cache.run_expire (c.list.length + 1) h (Nat.lt_succ_self _) [] 0
    rw [call, Recency.call, Cache.clearExpired, hrun, ← hexpire]
    exact mirrors_some rfl hinv ht

end

structure Session (K V : Type*) where
  cache : Cache K V
  outs : List (Out K V)

def Session.step (fs : Functors K U) (s : Session K V) (op : Op K V U) : Option (Session K V) :=
  (call fs s.cache op).map fun (out, cache) => { cache, outs := s.outs ++ [out] }

def Recency.step (fs : Functors K U) (timeout : Int64) (s : List (Entry K V) × List (Out K V))
    (op : Op K V U) : Option (List (Entry K V) × List (Out K V)) :=
  (call fs timeout s.1 op).map fun (out, es) => (es, s.2 ++ [out])

/-- What holds of a cache at any time. -/
structure Sound (fs : Functors K U) (c : Cache K V) : Prop where
  same : c.hash.elements.Perm c.list
  nodup : c.list.Nodup
  its : c.entries.map (·.it) = c.list
  keys : c.entries.Pairwise fun a b => fs.equal a.key b.key = false
  size : c.size = c.entries.length
  pow2 : ∃ k, c.bucketCount = 2 ^ k
  buckets : 16 ≤ c.bucketCount
  room : c.size < c.bucketCount

theorem Cache.Inv.sound {fs : Functors K U} {c : Cache K V} (h : c.Inv fs) : Sound fs c where
  same := (List.perm_ext_iff_of_nodup c.hash.nodup_elements h.nodup).mpr fun p => by
    rw [Buckets.mem_elements, h.linked]
  nodup := h.nodup
  its := h.it_entries
  keys := by
    have hnodup : c.entries.Pairwise fun a b => a.it ≠ b.it :=
      List.pairwise_map.mp (h.it_entries ▸ h.nodup)
    refine hnodup.imp_of_mem fun ha hb hne => ?_
    have ha := (Cache.mem_entries.mp ha).2
    have hb := (Cache.mem_entries.mp hb).2
    simpa using mt (h.distinct _ _ _ _ ha hb) hne
  size := by rw [Cache.size, ← h.it_entries, List.length_map]
  pow2 := c.hash.pow2
  buckets := h.buckets
  room := h.room

theorem step_inv {fs : Functors K U} (hfs : fs.Consistent) {timeout : Int64} (s : Session K V)
    (op : Op K V U) (t : Session K V) (hstep : s.step fs op = some t)
    (h : s.cache.Inv fs ∧ s.cache.timeout = timeout) :
    t.cache.Inv fs ∧ t.cache.timeout = timeout := by
  obtain ⟨r, hr, rfl⟩ := Option.map_eq_some_iff.mp hstep
  exact h.2 ▸ (call_mirrors hfs h.1 op).2 r hr

theorem step_mirrors {fs : Functors K U} (hfs : fs.Consistent) {timeout : Int64} (s : Session K V)
    (op : Op K V U) (h : s.cache.Inv fs ∧ s.cache.timeout = timeout) :
    (s.step fs op).map (fun s => (s.cache.entries, s.outs)) =
      Recency.step fs timeout (s.cache.entries, s.outs) op := by
  rw [Recency.step, ← h.2, ← (call_mirrors hfs h.1 op).1, Session.step, Option.map_map,
    Option.map_map]
  rfl

/-- Any calls from an empty cache return what they return on the abstract list, are defined
exactly when they are there, and keep the two containers in step. -/
theorem run_refines {fs : Functors K U} (hfs : fs.Consistent) (timeout : Int64) (buckets : Ptr)
    (ops : List (Op K V U)) :
    (Runs.exec (Session.step fs) ⟨create timeout buckets, []⟩ ops).map
        (fun s => (s.cache.entries, s.outs)) =
      Runs.exec (Recency.step fs timeout) ([], []) ops ∧
    ∀ s, Runs.exec (Session.step fs) ⟨create timeout buckets, []⟩ ops = some s →
      Sound fs s.cache := by
  have hstart : (create timeout buckets : Cache K V).Inv fs ∧
      (create timeout buckets : Cache K V).timeout = timeout := ⟨Cache.create_inv .., rfl⟩
  refine ⟨Runs.exec_map (step_mirrors hfs) (step_inv hfs) hstart ops, fun s hs => ?_⟩
  exact (Runs.exec_invariant (step_inv hfs) hs hstart).1.sound

def natFunctors : Functors Nat Nat :=
  { hash := BitVec.ofNat 64, equal := (· == ·), hashOf := BitVec.ofNat 64, equalTo := (· == ·) }

theorem natFunctors_consistent : natFunctors.Consistent where
  refl := by simp [natFunctors]
  symm := by simp [natFunctors]
  trans := by simp [natFunctors]
  hash := by simp [natFunctors]
  hashOf := by simp [natFunctors]
  unique := by simp [natFunctors]

def mixedCalls : List (Op Nat Nat Nat) :=
  [.insert 0 7 70 1 100, .insert 1 8 80 2 100, .insert 2 7 71 3 100, .touch 3 1, .find 8,
    .erase 2, .clearExpired 20 fun _ _ => false]

theorem mixedCalls_refine :
    (Runs.exec (Session.step natFunctors) ⟨create 10 99, []⟩ mixedCalls).map
        (fun s => (s.cache.entries, s.outs)) =
      Runs.exec (Recency.step natFunctors 10) ([], []) mixedCalls ∧
    ∀ s, Runs.exec (Session.step natFunctors) ⟨create 10 99, []⟩ mixedCalls = some s →
      Sound natFunctors s.cache :=
  run_refines natFunctors_consistent 10 99 mixedCalls

end Flyzero.LruCache
