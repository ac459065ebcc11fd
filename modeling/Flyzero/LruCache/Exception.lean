import Flyzero.LruCache.Refinement

/-! What an exception of `LruCache::insert` leaves behind. -/
namespace Flyzero.LruCache
variable {K V U : Type*}

/-- The calls of a user who goes on after an exception. -/
inductive Attempt (K V U : Type*) where
  | insert (supply : Supply) (now : Int64) (key : K) (value : V)
  | other (op : Op K V U)

def attempt (fs : Functors K U) (c : Cache K V) : Attempt K V U → Option (Cache K V)
  | .insert supply now key value => (c.insert fs supply now key value).map (·.2)
  | .other op => (call fs c op).map (·.2)

/-- A new node fills the table, and there is no memory for a larger one. -/
def GrowthFails (fs : Functors K U) (c : Cache K V) (supply : Supply) (key : K) : Prop :=
  (∀ e ∈ c.entries, fs.equal key e.key = false) ∧ (∃ p ∉ c.list, supply.node = some p) ∧
    supply.constructed = true ∧ supply.buckets = none ∧ c.bucketCount ≤ c.size + 1

namespace Cache
variable {fs : Functors K U} {c : Cache K V} {key : K}

theorem insert_starved (hfs : fs.Consistent) (h : Coupled fs c)
    (he : (c.entries.find? fun e => fs.equal key e.key) = none) (constructed : Bool)
    (buckets : Option Ptr) (now : Int64) (value : V) :
    c.insert fs ⟨none, constructed, buckets⟩ now key value = some (none, c) := by
  rw [insert, insertCheck_eq hfs h key, he]
  rfl

/-- The memory of the node is lost. -/
theorem insert_unconstructed (hfs : fs.Consistent) (h : Coupled fs c)
    (he : (c.entries.find? fun e => fs.equal key e.key) = none) (node : Ptr)
    (buckets : Option Ptr) (now : Int64) (value : V) :
    c.insert fs ⟨some node, false, buckets⟩ now key value =
      some (none, { c with ledger := c.ledger ++ [.allocateNode node] }) := by
  rw [insert, insertCheck_eq hfs h key, he]
  rfl

theorem insert_cases (hfs : fs.Consistent) (h : Coupled fs c) {supply : Supply} {now : Int64}
    {value : V} {c' : Cache K V} {res : Option (Ptr × Bool)}
    (hinsert : c.insert fs supply now key value = some (res, c')) :
    (∃ ledger, c' = { c with ledger }) ∨ Coupled fs c' ∧ res.isSome ∨
      Coupled fs c' ∧ GrowthFails fs c supply key := by
  obtain ⟨node, constructed, buckets⟩ := supply
  cases he : c.entries.find? fun e => fs.equal key e.key with
  | some e =>
    rw [insert_found hfs h he] at hinsert
    cases hinsert
    exact .inl ⟨_, rfl⟩
  | none =>
    cases node with
    | none =>
      rw [insert_starved hfs h he] at hinsert
      cases hinsert
      exact .inl ⟨_, rfl⟩
    | some p =>
      cases constructed with
      | false =>
        rw [insert_unconstructed hfs h he] at hinsert
        cases hinsert
        exact .inl ⟨_, rfl⟩
      | true =>
        by_cases hp : p ∈ c.list
        · rw [insert_used hfs h he hp] at hinsert
          cases hinsert
        · obtain ⟨c₁, hc₁, -, -, -, -, heq⟩ := insert_link hfs h he hp now value
          rw [heq] at hinsert
          by_cases hfull : c.size + 1 ≥ c.bucketCount
          · rw [if_pos hfull] at hinsert
            cases buckets with
            | none =>
              cases hinsert
              have hnew : ∀ e ∈ c.entries, fs.equal key e.key = false := fun e hmem => by
                simpa using List.find?_eq_none.mp he e hmem
              exact .inr (.inr ⟨hc₁, hnew, ⟨p, hp, rfl⟩, rfl, rfl, hfull⟩)
            | some b =>
              cases hinsert
              exact .inr (.inl ⟨grow_coupled hc₁ b, rfl⟩)
          · rw [if_neg hfull] at hinsert
            cases hinsert
            exact .inr (.inl ⟨hc₁, rfl⟩)

theorem insert_coupled (hfs : fs.Consistent) (h : Coupled fs c) {supply : Supply} {now : Int64}
    {value : V} {c' : Cache K V} {res : Option (Ptr × Bool)}
    (hinsert : c.insert fs supply now key value = some (res, c')) : Coupled fs c' := by
  rcases insert_cases hfs h hinsert with ⟨ledger, rfl⟩ | hdone | hfails
  · exact ⟨h.linked, h.live, h.nodup, h.hashes, h.distinct, h.buckets⟩
  · exact hdone.1
  · exact hfails.1

end Cache

theorem call_coupled {fs : Functors K U} {c c' : Cache K V} (hfs : fs.Consistent)
    (h : c.Coupled fs) {op : Op K V U} {out : Out K V} (hcall : call fs c op = some (out, c')) :
    c'.Coupled fs := by
  cases op with
  | insert now key value node buckets =>
    obtain ⟨⟨res, c₁⟩, hinsert, hres⟩ := Option.bind_eq_some_iff.mp hcall
    obtain ⟨r, rfl, heq⟩ := Option.map_eq_some_iff.mp hres
    cases heq
    exact Cache.insert_coupled hfs h hinsert
  | find key =>
    cases hcall
    exact h
  | erase it =>
    obtain ⟨c₁, herase, heq⟩ := Option.map_eq_some_iff.mp hcall
    cases heq
    exact (Cache.erase_removed herase).coupled h
  | touch now it =>
    obtain ⟨c₁, htouch, heq⟩ := Option.map_eq_some_iff.mp hcall
    cases heq
    obtain ⟨node, ht⟩ := Cache.touch_touched htouch
    exact ht.coupled h
  | clearExpired now throws =>
    obtain ⟨x, hclear, heq⟩ := Option.map_eq_some_iff.mp hcall
    cases heq
    exact Cache.clearExpired_keeps
      (fun c p rest hc hlist _ => (Cache.pop_removed hlist).coupled hc) h hclear

theorem attempt_coupled {fs : Functors K U} (hfs : fs.Consistent) (c : Cache K V)
    (a : Attempt K V U) (c' : Cache K V) (hstep : attempt fs c a = some c')
    (h : c.Coupled fs) : c'.Coupled fs := by
  cases a with
  | insert supply now key value =>
    obtain ⟨r, hinsert, rfl⟩ := Option.map_eq_some_iff.mp hstep
    exact Cache.insert_coupled hfs h hinsert
  | other op =>
    obtain ⟨r, hcall, rfl⟩ := Option.map_eq_some_iff.mp hstep
    exact call_coupled hfs h hcall

structure SameCache (fs : Functors K U) (c c' : Cache K V) : Prop where
  entries : c'.entries = c.entries
  size : c'.size = c.size
  bucketCount : c'.bucketCount = c.bucketCount
  absent : ∀ key, c.find fs key = none → c'.find fs key = none

/-- An exception leaves the cache as it was. -/
def Unharmed (fs : Functors K U) (c : Cache K V) (supply : Supply) (now : Int64) (key : K)
    (value : V) : Prop :=
  ∀ c', c.insert fs supply now key value = some (none, c') → SameCache fs c c'

theorem GrowthFails.harmed {fs : Functors K U} {c : Cache K V} {supply : Supply} {key : K}
    (hfs : fs.Consistent) (h : c.Coupled fs) (hfails : GrowthFails fs c supply key) (now : Int64)
    (value : V) : ¬ Unharmed fs c supply now key value := by
  obtain ⟨node, constructed, buckets⟩ := supply
  obtain ⟨hnew, ⟨p, hp, rfl⟩, rfl, rfl, hfull⟩ := hfails
  have he : (c.entries.find? fun e => fs.equal key e.key) = none := by
    rw [List.find?_eq_none]
    intro e hmem
    rw [hnew e hmem]
    exact Bool.false_ne_true
  obtain ⟨c₁, -, -, hsize, -, -, hinsert⟩ := Cache.insert_link hfs h he hp now value
  intro hall
  have hsame := hall c₁ (by rw [hinsert, if_pos hfull]; rfl)
  have hsize' := hsame.size
  omega

theorem unharmed_of_room {fs : Functors K U} {c : Cache K V} {supply : Supply} {key : K}
    (hfs : fs.Consistent) (h : c.Coupled fs) (hfails : ¬ GrowthFails fs c supply key) (now : Int64)
    (value : V) : Unharmed fs c supply now key value := by
  intro c' hinsert
  rcases Cache.insert_cases hfs h hinsert with ⟨ledger, rfl⟩ | hdone | hgrowth
  · exact ⟨rfl, rfl, rfl, fun _ hnone => hnone⟩
  · cases hdone.2
  · exact absurd hgrowth.2 hfails

/-- The larger table is only asked for when the node is in place. -/
theorem unharmed_iff {fs : Functors K U} (hfs : fs.Consistent) {timeout : Int64} {buckets : Ptr}
    {c : Cache K V} (hreach : Runs.Reachable (attempt fs) (create timeout buckets) c)
    (supply : Supply) (now : Int64) (key : K) (value : V) :
    Unharmed fs c supply now key value ↔ ¬ GrowthFails fs c supply key := by
  have hstart : (create timeout buckets : Cache K V).Coupled fs :=
    (Cache.create_inv fs timeout buckets).toCoupled
  have h := hreach.invariant hstart (attempt_coupled hfs)
  exact ⟨fun hall hfails => hfails.harmed hfs h now value hall,
    fun hfails => unharmed_of_room hfs h hfails now value⟩

theorem create_unharmed :
    Unharmed natFunctors (create 10 99 : Cache Nat Nat) ⟨some 1, false, none⟩ 0 7 70 :=
  (unharmed_iff natFunctors_consistent ⟨[], rfl⟩ _ 0 7 70).mpr fun hfails =>
    absurd hfails.2.2.1 Bool.false_ne_true

def fifteenInserts : List (Attempt Nat Nat Nat) :=
  (List.range 15).map fun k => .insert ⟨some (k + 1), true, none⟩ 0 k k

theorem sixteenth_kept : ∃ c c' : Cache Nat Nat,
    Runs.exec (attempt natFunctors) (create 10 99) fifteenInserts = some c ∧
    c.insert natFunctors ⟨some 16, true, none⟩ 0 15 15 = some (none, c') ∧
    c.find natFunctors 15 = none ∧ c'.find natFunctors 15 = some 16 ∧
    ¬ Unharmed natFunctors c ⟨some 16, true, none⟩ 0 15 15 := by
  obtain ⟨c, c', hc, hinsert, hbefore, hafter⟩ : ∃ c c' : Cache Nat Nat,
      Runs.exec (attempt natFunctors) (create 10 99) fifteenInserts = some c ∧
        c.insert natFunctors ⟨some 16, true, none⟩ 0 15 15 = some (none, c') ∧
        c.find natFunctors 15 = none ∧ c'.find natFunctors 15 = some 16 :=
    ⟨_, _, rfl, rfl, rfl, rfl⟩
  refine ⟨c, c', hc, hinsert, hbefore, hafter, fun hall => ?_⟩
  have hnone := (hall c' hinsert).absent 15 hbefore
  rw [hafter] at hnone
  cases hnone

end Flyzero.LruCache
