import Flyzero.LruCache.Cache

/-! What the two containers of an `LruCache` have in common, and the entries they hold. -/
namespace Flyzero.LruCache
variable {K V U : Type*}

structure Entry (K V : Type*) where
  it : Ptr
  key : K
  value : V
  deadline : Int64

/-- Equal keys are an equivalence that the hash respects, and what a key is looked up by agrees. -/
structure Functors.Consistent (fs : Functors K U) : Prop where
  refl : ∀ a, fs.equal a a = true
  symm : ∀ a b, fs.equal a b = true → fs.equal b a = true
  trans : ∀ a b c, fs.equal a b = true → fs.equal b c = true → fs.equal a c = true
  hash : ∀ a b, fs.equal a b = true → fs.hash a = fs.hash b
  hashOf : ∀ u a, fs.equalTo u a = true → fs.hashOf u = fs.hash a
  unique : ∀ u a b, fs.equalTo u a = true → fs.equalTo u b = true → fs.equal a b = true

namespace Cache

def entry (c : Cache K V) (p : Ptr) : Option (Entry K V) :=
  (c.nodes p).map fun n => { it := p, key := n.key, value := n.value, deadline := n.deadline }

def entries (c : Cache K V) : List (Entry K V) := c.list.filterMap c.entry

structure Wired (c : Cache K V) : Prop where
  linked : ∀ p, c.hash.Linked p ↔ p ∈ c.list
  live : ∀ p, (c.nodes p).isSome ↔ p ∈ c.list
  nodup : c.list.Nodup

/-- Both containers link exactly the live nodes, by the hashes of their different keys. -/
structure Coupled (fs : Functors K U) (c : Cache K V) : Prop where
  linked : ∀ p, c.hash.Linked p ↔ p ∈ c.list
  live : ∀ p, (c.nodes p).isSome ↔ p ∈ c.list
  nodup : c.list.Nodup
  hashes : ∀ p n, c.nodes p = some n → c.hash.stored p = fs.hash n.key
  distinct : ∀ p q m n, c.nodes p = some m → c.nodes q = some n → fs.equal m.key n.key = true → p = q
  buckets : 16 ≤ c.bucketCount

structure Inv (fs : Functors K U) (c : Cache K V) : Prop extends Coupled fs c where
  room : c.size < c.bucketCount

theorem Coupled.wired {fs : Functors K U} {c : Cache K V} (h : Coupled fs c) : Wired c :=
  ⟨h.linked, h.live, h.nodup⟩

theorem create_wired (timeout : Int64) (buckets : Ptr) :
    Wired (create timeout buckets : Cache K V) where
  linked p := by simp [create]
  live p := by simp [create]
  nodup := .nil

theorem create_inv (fs : Functors K U) (timeout : Int64) (buckets : Ptr) :
    Inv fs (create timeout buckets : Cache K V) where
  linked := (create_wired timeout buckets).linked
  live := (create_wired timeout buckets).live
  nodup := .nil
  hashes p n h := by cases h
  distinct p q m n h := by cases h
  buckets := Nat.le_refl 16
  room := Nat.zero_lt_succ 15

section
variable {fs : Functors K U} {c : Cache K V}

theorem mem_entries {e : Entry K V} :
    e ∈ c.entries ↔ e.it ∈ c.list ∧
      c.nodes e.it = some { deadline := e.deadline, key := e.key, value := e.value } := by
  simp only [entries, entry, List.mem_filterMap, Option.map_eq_some_iff]
  constructor
  · rintro ⟨p, hp, n, hn, rfl⟩
    exact ⟨hp, hn⟩
  · rintro ⟨hp, hn⟩
    exact ⟨e.it, hp, _, hn, rfl⟩

theorem entry_eq_some {p : Ptr} {e : Entry K V} : c.entry p = some e ↔ e.it = p ∧
    c.nodes p = some { deadline := e.deadline, key := e.key, value := e.value } := by
  simp only [entry, Option.map_eq_some_iff]
  constructor
  · rintro ⟨n, hn, rfl⟩
    exact ⟨rfl, hn⟩
  · rintro ⟨rfl, hn⟩
    exact ⟨_, hn, rfl⟩

theorem filterMap_it {l : List Ptr} (hl : ∀ p ∈ l, (c.nodes p).isSome) :
    (l.filterMap c.entry).map (·.it) = l := by
  induction l with
  | nil => rfl
  | cons p l ih =>
    obtain ⟨n, hn⟩ := Option.isSome_iff_exists.mp (hl p List.mem_cons_self)
    have hentry : c.entry p = some ⟨p, n.key, n.value, n.deadline⟩ := by
      rw [entry, hn, Option.map_some]
    rw [List.filterMap_cons_some hentry, List.map_cons,
      ih fun q hq => hl q (List.mem_cons_of_mem _ hq)]

theorem filterMap_congr {c' : Cache K V} {l : List Ptr} (h : ∀ p ∈ l, c'.nodes p = c.nodes p) :
    l.filterMap c'.entry = l.filterMap c.entry :=
  List.filterMap_congr fun p hp => by rw [entry, entry, h p hp]

theorem filterMap_erase {c' : Cache K V} {it : Ptr} (h : ∀ p ≠ it, c'.nodes p = c.nodes p)
    {l : List Ptr} (hl : l.Nodup) :
    (l.erase it).filterMap c'.entry = (l.filterMap c.entry).filter fun e => e.it ≠ it := by
  rw [hl.erase_eq_filter]
  induction l with
  | nil => rfl
  | cons p l ih =>
    have ih := ih hl.of_cons
    cases hp : c.entry p with
    | none =>
      rw [List.filterMap_cons_none hp, ← ih]
      rcases Decidable.em (p = it) with rfl | hne
      · rw [List.filter_cons_of_neg (by simp)]
      · have hp' : c'.entry p = none := by rw [entry, h p hne, ← entry, hp]
        rw [List.filter_cons_of_pos (by simpa using hne), List.filterMap_cons_none hp']
    | some e =>
      have hit := (entry_eq_some.mp hp).1
      rw [List.filterMap_cons_some hp]
      rcases Decidable.em (p = it) with rfl | hne
      · rw [List.filter_cons_of_neg (by simp), List.filter_cons_of_neg (by simp [hit]), ih]
      · have hp' : c'.entry p = some e := by rw [entry, h p hne, ← entry, hp]
        rw [List.filter_cons_of_pos (by simpa using hne), List.filterMap_cons_some hp',
          List.filter_cons_of_pos (by simpa [hit] using hne), ih]

theorem Coupled.it_entries (h : Coupled fs c) : c.entries.map (·.it) = c.list :=
  filterMap_it fun p hp => (h.live p).mpr hp

theorem Coupled.find?_it (h : Coupled fs c) (it : Ptr) :
    (c.entries.find? fun e => e.it = it) = c.entry it := by
  cases hit : c.entry it with
  | none =>
    rw [List.find?_eq_none]
    intro e he heq
    have heq : e.it = it := by simpa using heq
    rw [entry, ← heq, (mem_entries.mp he).2] at hit
    cases hit
  | some e =>
    obtain ⟨rfl, hn⟩ := entry_eq_some.mp hit
    have he : e ∈ c.entries := mem_entries.mpr ⟨(h.live _).mp (by rw [hn]; rfl), hn⟩
    cases hfind : c.entries.find? fun e' => e'.it = e.it with
    | none =>
      have := List.find?_eq_none.mp hfind e he
      simp at this
    | some e' =>
      have hmem := mem_entries.mp (List.mem_of_find?_eq_some hfind)
      have heq : e'.it = e.it := by simpa using List.find?_some hfind
      have hent : c.entry e.it = some e' := entry_eq_some.mpr ⟨heq, heq ▸ hmem.2⟩
      rw [← hent, hit]

theorem keyed_iff {same : K → Bool} {p : Ptr} :
    c.keyed same p = true ↔ ∃ n, c.nodes p = some n ∧ same n.key = true := by
  rw [keyed, Option.any_eq_true]

/-- Looking a key up in its bucket finds the entry that a scan of the list finds. -/
theorem Coupled.find?_hash (h : Coupled fs c) {hs : BitVec 64} {same : K → Bool}
    (hhash : ∀ k, same k = true → fs.hash k = hs)
    (hunique : ∀ a b, same a = true → same b = true → fs.equal a b = true) :
    c.hash.find? hs (c.keyed same) = (c.entries.find? fun e => same e.key).map (·.it) := by
  have hkeyed : ∀ e ∈ c.entries, c.keyed same e.it = same e.key := by
    intro e he
    rw [keyed, (mem_entries.mp he).2, Option.any_some]
  cases hfind : c.hash.find? hs (c.keyed same) with
  | none =>
    have hnone := c.hash.find?_none hfind fun p _ hp => by
      obtain ⟨n, hn, hsame⟩ := keyed_iff.mp hp
      rw [h.hashes p n hn, hhash _ hsame]
    have hscan : (c.entries.find? fun e => same e.key) = none := by
      rw [List.find?_eq_none]
      intro e he
      rw [← hkeyed e he, hnone e.it ((h.linked _).mpr (mem_entries.mp he).1)]
      exact Bool.false_ne_true
    rw [hscan, Option.map_none]
  | some p =>
    obtain ⟨hp, hsame⟩ := c.hash.find?_some hfind
    obtain ⟨n, hn, hsame⟩ := keyed_iff.mp hsame
    cases hscan : c.entries.find? fun e => same e.key with
    | none =>
      have he : ⟨p, n.key, n.value, n.deadline⟩ ∈ c.entries :=
        mem_entries.mpr ⟨(h.linked p).mp hp, hn⟩
      exact absurd hsame (List.find?_eq_none.mp hscan _ he)
    | some e =>
      have he := mem_entries.mp (List.mem_of_find?_eq_some hscan)
      have hfound : same e.key = true := by simpa using List.find?_some hscan
      have hequal := hunique _ _ hsame hfound
      rw [Option.map_some, h.distinct p e.it n _ hn he.2 hequal]

end

/-! What each part of a call does to the containers and to the entries. -/
section
variable {fs : Functors K U} {c c' : Cache K V} {p : Ptr}

theorem link_eq_none (h : Coupled fs c) {hs : BitVec 64} {node : Node K V} :
    c.link p hs node = none ↔ p ∈ c.list := by
  unfold link
  split
  · rename_i hp
    simp [(h.linked p).mp hp]
  · rename_i hp
    have hmem := (h.linked p).not.mp hp
    have hlive := (h.live p).not.mpr hmem
    simp [hlive, hmem]

theorem link_fields {hs : BitVec 64} {node : Node K V} (hlink : c.link p hs node = some c') :
    ∃ hp, c'.nodes = Function.update c.nodes p (some node) ∧ c'.list = c.list ++ [p] ∧
      c'.hash = c.hash.insertCommit p hs hp ∧ c'.timeout = c.timeout := by
  unfold link at hlink
  split at hlink
  · cases hlink
  · rename_i hp
    split at hlink <;> cases hlink
    exact ⟨hp, rfl, rfl, rfl, rfl⟩

theorem link_entries (h : Coupled fs c) {hs : BitVec 64} {node : Node K V}
    (hlink : c.link p hs node = some c') :
    c'.entries = c.entries ++ [⟨p, node.key, node.value, node.deadline⟩] := by
  obtain ⟨hp, hnodes, hlist, -, -⟩ := link_fields hlink
  have hmem := (h.linked p).not.mp hp
  have hold : c.list.filterMap c'.entry = c.entries := by
    apply filterMap_congr
    intro q hq
    have hne : q ≠ p := fun heq => hmem (heq ▸ hq)
    rw [hnodes, Function.update_of_ne hne]
  have hnew : c'.entry p = some ⟨p, node.key, node.value, node.deadline⟩ := by
    rw [entry, hnodes, Function.update_self, Option.map_some]
  rw [entries, hlist, List.filterMap_append, hold, List.filterMap_cons_some hnew,
    List.filterMap_nil]

theorem link_wired (h : Wired c) {hs : BitVec 64} {node : Node K V}
    (hlink : c.link p hs node = some c') : Wired c' := by
  obtain ⟨hp, hnodes, hlist, hhash, -⟩ := link_fields hlink
  have hmem := (h.linked p).not.mp hp
  refine ⟨fun q => ?_, fun q => ?_, ?_⟩
  · rw [hhash, Buckets.linked_insertCommit, h.linked, hlist, List.mem_append, List.mem_singleton,
      or_comm]
  · rw [hlist, hnodes, List.mem_append, List.mem_singleton]
    rcases Decidable.em (q = p) with rfl | hne
    · simp
    · rw [Function.update_of_ne hne, h.live, or_iff_left hne]
  · rw [hlist]
    refine List.nodup_append.mpr ⟨h.nodup, List.nodup_singleton p, fun q hq r hr heq => ?_⟩
    rw [List.mem_singleton.mp hr] at heq
    exact hmem (heq ▸ hq)

theorem link_coupled (h : Coupled fs c) {node : Node K V}
    (hlink : c.link p (fs.hash node.key) node = some c')
    (hnew : ∀ q n, c.nodes q = some n → fs.equal node.key n.key = false ∧
      fs.equal n.key node.key = false) : Coupled fs c' := by
  obtain ⟨hlinked, hlive, hnodup⟩ := link_wired h.wired hlink
  obtain ⟨hp, hnodes, hlist, hhash, -⟩ := link_fields hlink
  refine ⟨hlinked, hlive, hnodup, fun q n hn => ?_, fun q r m n hm hn hequal => ?_, ?_⟩
  · rw [hnodes] at hn
    rw [hhash, Buckets.stored_insertCommit]
    rcases Decidable.em (q = p) with rfl | hne
    · rw [Function.update_self, Option.some.injEq] at hn
      rw [if_pos rfl, hn]
    · rw [Function.update_of_ne hne] at hn
      rw [if_neg hne, h.hashes q n hn]
  · rw [hnodes] at hm hn
    rcases Decidable.em (q = p) with hq | hq <;> rcases Decidable.em (r = p) with hr | hr
    · rw [hq, hr]
    · rw [hq, Function.update_self, Option.some.injEq] at hm
      rw [Function.update_of_ne hr] at hn
      rw [← hm, (hnew r n hn).1] at hequal
      cases hequal
    · rw [hr, Function.update_self, Option.some.injEq] at hn
      rw [Function.update_of_ne hq] at hm
      rw [← hn, (hnew q m hm).2] at hequal
      cases hequal
    · rw [Function.update_of_ne hq] at hm
      rw [Function.update_of_ne hr] at hn
      exact h.distinct q r m n hm hn hequal
  · rw [bucketCount, hhash]
    exact h.buckets

theorem grow_wired (h : Wired c) (buckets : Ptr) : Wired (c.grow buckets) where
  linked q := by rw [grow, Buckets.linked_rehash, h.linked]
  live := h.live
  nodup := h.nodup

theorem grow_coupled (h : Coupled fs c) (buckets : Ptr) : Coupled fs (c.grow buckets) where
  linked := (grow_wired h.wired buckets).linked
  live := h.live
  nodup := h.nodup
  hashes := h.hashes
  distinct := h.distinct
  buckets := by
    have hcount := h.buckets
    change 16 ≤ c.bucketCount * 2
    omega

theorem grow_inv (h : Coupled fs c) (hsize : c.size ≤ c.bucketCount) (buckets : Ptr) :
    Inv fs (c.grow buckets) where
  toCoupled := grow_coupled h buckets
  room := by
    have hcount := h.buckets
    change c.size < c.bucketCount * 2
    omega

structure Removed (c c' : Cache K V) (it : Ptr) : Prop where
  nodes : c'.nodes = Function.update c.nodes it none
  list : c'.list = c.list.erase it
  hash : c'.hash = c.hash.erase it
  timeout : c'.timeout = c.timeout

theorem Removed.entries (hr : Removed c c' p) (h : Coupled fs c) :
    c'.entries = c.entries.filter fun e => e.it ≠ p := by
  rw [Cache.entries, hr.list]
  apply filterMap_erase _ h.nodup
  intro q hne
  rw [hr.nodes, Function.update_of_ne hne]

theorem Removed.wired (hr : Removed c c' p) (h : Wired c) : Wired c' := by
  refine ⟨fun q => ?_, fun q => ?_, ?_⟩
  · rw [hr.hash, hr.list, Buckets.linked_erase, h.linked, h.nodup.mem_erase_iff]
  · rw [hr.nodes, hr.list, h.nodup.mem_erase_iff]
    rcases Decidable.em (q = p) with heq | hne
    · simp [heq]
    · rw [Function.update_of_ne hne, h.live, and_iff_right hne]
  · rw [hr.list]
    exact h.nodup.erase p

theorem Removed.coupled (hr : Removed c c' p) (h : Coupled fs c) : Coupled fs c' := by
  obtain ⟨hlinked, hlive, hnodup⟩ := hr.wired h.wired
  have hold : ∀ q n, c'.nodes q = some n → c.nodes q = some n := by
    intro q n hn
    rw [hr.nodes] at hn
    rcases Decidable.em (q = p) with heq | hne
    · rw [heq, Function.update_self] at hn
      cases hn
    · rwa [Function.update_of_ne hne] at hn
  refine ⟨hlinked, hlive, hnodup, fun q n hn => ?_, fun q r m n hm hn => ?_, ?_⟩
  · rw [hr.hash]
    exact h.hashes q n (hold q n hn)
  · exact h.distinct q r m n (hold q m hm) (hold r n hn)
  · rw [bucketCount, hr.hash]
    exact h.buckets

theorem Removed.inv (hr : Removed c c' p) (h : Inv fs c) : Inv fs c' := by
  refine ⟨hr.coupled h.toCoupled, ?_⟩
  have hroom := h.room
  have hlen := List.length_erase_le (a := p) (l := c.list)
  rw [size, bucketCount, hr.list, hr.hash]
  exact Nat.lt_of_le_of_lt hlen hroom

structure Touched (c c' : Cache K V) (now : Int64) (it : Ptr) (node : Node K V) : Prop where
  live : c.nodes it = some node
  nodes : c'.nodes =
    Function.update c.nodes it (some { node with deadline := now + c.timeout })
  list : c'.list = c.list.erase it ++ [it]
  hash : c'.hash = c.hash
  timeout : c'.timeout = c.timeout

theorem Touched.entries {now : Int64} {node : Node K V} (ht : Touched c c' now p node)
    (h : Coupled fs c) :
    c'.entries = c.entries.filter (fun e => e.it ≠ p) ++
      [⟨p, node.key, node.value, now + c.timeout⟩] := by
  have hother : ∀ q ≠ p, c'.nodes q = c.nodes q := by
    intro q hne
    rw [ht.nodes, Function.update_of_ne hne]
  have hnew : c'.entry p = some ⟨p, node.key, node.value, now + c.timeout⟩ := by
    rw [entry, ht.nodes, Function.update_self, Option.map_some]
  rw [Cache.entries, ht.list, List.filterMap_append, filterMap_erase hother h.nodup,
    List.filterMap_cons_some hnew, List.filterMap_nil]
  rfl

theorem Touched.wired {now : Int64} {node : Node K V} (ht : Touched c c' now p node)
    (h : Wired c) : Wired c' := by
  have hmem : p ∈ c.list := (h.live p).mp (by rw [ht.live]; rfl)
  have hin : ∀ q, q ∈ c'.list ↔ q ∈ c.list := by
    intro q
    rw [ht.list, List.mem_append, List.mem_singleton, h.nodup.mem_erase_iff]
    rcases Decidable.em (q = p) with rfl | hne
    · simp [hmem]
    · simp [hne]
  refine ⟨fun q => ?_, fun q => ?_, ?_⟩
  · rw [ht.hash, h.linked, hin]
  · rw [hin, ← h.live, ht.nodes]
    rcases Decidable.em (q = p) with rfl | hne
    · rw [Function.update_self, ht.live]
      rfl
    · rw [Function.update_of_ne hne]
  · rw [ht.list]
    refine List.nodup_append.mpr ⟨h.nodup.erase p, List.nodup_singleton p, fun q hq r hr => ?_⟩
    rw [List.mem_singleton.mp hr]
    exact (h.nodup.mem_erase_iff.mp hq).1

theorem Touched.coupled {now : Int64} {node : Node K V} (ht : Touched c c' now p node)
    (h : Coupled fs c) : Coupled fs c' := by
  obtain ⟨hlinked, hlive, hnodup⟩ := ht.wired h.wired
  -- the node keeps its key
  have hold : ∀ q n, c'.nodes q = some n → ∃ m, c.nodes q = some m ∧ m.key = n.key := by
    intro q n hn
    rw [ht.nodes] at hn
    rcases Decidable.em (q = p) with rfl | hne
    · rw [Function.update_self, Option.some.injEq] at hn
      exact ⟨node, ht.live, by rw [← hn]⟩
    · rw [Function.update_of_ne hne] at hn
      exact ⟨n, hn, rfl⟩
  refine ⟨hlinked, hlive, hnodup, fun q n hn => ?_, fun q r m n hm hn hequal => ?_, ?_⟩
  · obtain ⟨m, hm, hkey⟩ := hold q n hn
    rw [ht.hash, h.hashes q m hm, hkey]
  · obtain ⟨m', hm', hmkey⟩ := hold q m hm
    obtain ⟨n', hn', hnkey⟩ := hold r n hn
    exact h.distinct q r m' n' hm' hn' (by rwa [hmkey, hnkey])
  · rw [bucketCount, ht.hash]
    exact h.buckets

theorem Touched.inv {now : Int64} {node : Node K V} (ht : Touched c c' now p node)
    (h : Inv fs c) : Inv fs c' := by
  refine ⟨ht.coupled h.toCoupled, ?_⟩
  have hmem : p ∈ c.list := (h.live p).mp (by rw [ht.live]; rfl)
  have hlen : c'.list.length = c.list.length := by
    have hpos := List.length_pos_of_mem hmem
    rw [ht.list, List.length_append, List.length_erase_of_mem hmem, List.length_singleton]
    omega
  rw [size, bucketCount, ht.hash, hlen]
  exact h.room

theorem erase_removed (h : c.erase p = some c') : Removed c c' p := by
  obtain ⟨node, hnode, rfl⟩ := Option.map_eq_some_iff.mp h
  exact ⟨rfl, rfl, rfl, rfl⟩

theorem touch_touched {now : Int64} (h : c.touch now p = some c') :
    ∃ node, Touched c c' now p node := by
  obtain ⟨node, hnode, rfl⟩ := Option.map_eq_some_iff.mp h
  exact ⟨node, hnode, rfl, rfl, rfl, rfl⟩

end

end Cache
end Flyzero.LruCache
