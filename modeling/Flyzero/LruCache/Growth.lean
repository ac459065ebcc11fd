import Flyzero.Lib.Doubling
import Flyzero.LruCache.Ledger

/-! How the bucket array of an `LruCache` grows, and what its rehashing costs. -/
namespace Flyzero.LruCache
variable {K V U : Type*}

/-- A cache with its greatest size after a call, the nodes that calls have inserted and those that
they have linked again in another bucket array. -/
structure Growing (K V : Type*) where
  cache : Cache K V
  peak : Nat
  inserted : Nat
  relinked : Nat

def Out.isNew : Out K V → Bool
  | .inserted _ new => new
  | _ => false

namespace Growing

def start (timeout : Int64) (buckets : Ptr) : Growing K V :=
  { cache := create timeout buckets, peak := 0, inserted := 0, relinked := 0 }

def step (fs : Functors K U) (g : Growing K V) (op : Op K V U) : Option (Growing K V) :=
  (call fs g.cache op).map fun (out, c) =>
    { cache := c
      peak := max g.peak c.size
      inserted := g.inserted + if out.isNew then 1 else 0
      relinked := g.relinked + if c.bucketCount = g.cache.bucketCount then 0 else c.size }

def doubling (g : Growing K V) : Doubling :=
  ⟨g.cache.bucketCount, g.cache.size, g.peak, g.inserted, g.relinked⟩

/-- The bucket array is the least that all sizes so far left room in, and all rehashing together
has been less than two links for each node that was inserted. -/
structure Amortized (g : Growing K V) : Prop where
  room : g.cache.size < g.cache.bucketCount
  least : ∃ k, g.cache.bucketCount = 16 * 2 ^ k ∧ g.peak < g.cache.bucketCount ∧
    ∀ j < k, 16 * 2 ^ j ≤ g.peak
  relinked : g.relinked + 16 = g.cache.bucketCount
  inserted : g.relinked ≤ 2 * g.inserted

section
variable {fs : Functors K U} {c c' : Cache K V} {g g' : Growing K V}

inductive Resizes (c c' : Cache K V) (new : Bool) : Prop
  | gains (hnew : new = true) (hsize : c'.size = c.size + 1)
    (hcount : c'.bucketCount =
      if c.size + 1 ≥ c.bucketCount then c.bucketCount * 2 else c.bucketCount)
  | loses (hnew : new = false) (hsize : c'.size ≤ c.size) (hcount : c'.bucketCount = c.bucketCount)

theorem removed_resizes {p : Ptr} (h : c.Removed c' p) :
    c'.size ≤ c.size ∧ c'.bucketCount = c.bucketCount := by
  refine ⟨?_, by rw [Cache.bucketCount, h.hash]; rfl⟩
  rw [Cache.size, h.list]
  exact List.length_erase_le

theorem insert_resizes {node buckets : Ptr} {now : Int64} {key : K} {value : V} {it : Ptr}
    {new : Bool} (h : c.insert fs ⟨some node, true, some buckets⟩ now key value =
      some (some (it, new), c')) : Resizes c c' new := by
  rw [Cache.insert] at h
  split at h
  · cases h
    exact .loses rfl (Nat.le_refl _) rfl
  · obtain ⟨c₁, hlink, heq⟩ := Option.map_eq_some_iff.mp h
    obtain ⟨_, -, hlist, hhash, -⟩ := Cache.link_fields hlink
    have hsize : c₁.size = c.size + 1 := by
      rw [Cache.size, hlist, List.length_append, List.length_singleton, Cache.size]
    have hcount : c₁.bucketCount = c.bucketCount := by
      rw [Cache.bucketCount, hhash]
      rfl
    rw [hsize, hcount] at heq
    split at heq
    · rename_i hfull
      cases heq
      refine .gains rfl hsize ?_
      rw [if_pos hfull, ← hcount]
      rfl
    · rename_i hroom
      cases heq
      exact .gains rfl hsize (by rw [if_neg hroom, hcount])

theorem clearExpired_resizes {throws : List (K × V) → K × V → Bool} {now : Int64}
    {x : Expiry K V × Bool} (h : c.clearExpired now throws = some x) :
    x.1.cache.size ≤ c.size ∧ x.1.cache.bucketCount = c.bucketCount := by
  have hpop (c₁ : Cache K V) (p : Ptr) (rest : List Ptr)
      (hc₁ : c₁.size ≤ c.size ∧ c₁.bucketCount = c.bucketCount) (hlist : c₁.list = p :: rest)
      (_ : (c₁.nodes p).isSome) :=
    (removed_resizes (Cache.pop_removed hlist)).imp (Nat.le_trans · hc₁.1) (Eq.trans · hc₁.2)
  exact Cache.clearExpired_keeps hpop ⟨Nat.le_refl _, rfl⟩ h

theorem call_resizes (hc : c.Accounted) {op : Op K V U} {out : Out K V}
    (h : call fs c op = some (out, c')) : Resizes c c' out.isNew := by
  cases op with
  | insert now key value node buckets =>
    obtain ⟨⟨res, c₁⟩, hinsert, hres⟩ := Option.bind_eq_some_iff.mp h
    obtain ⟨⟨it, new⟩, rfl, heq⟩ := Option.map_eq_some_iff.mp hres
    cases heq
    exact insert_resizes hinsert
  | find key =>
    cases h
    exact .loses rfl (Nat.le_refl _) rfl
  | erase it =>
    obtain ⟨c₁, herase, heq⟩ := Option.map_eq_some_iff.mp h
    cases heq
    obtain ⟨hsize, hcount⟩ := removed_resizes (Cache.erase_removed herase)
    exact .loses rfl hsize hcount
  | touch now it =>
    obtain ⟨c₁, htouch, heq⟩ := Option.map_eq_some_iff.mp h
    cases heq
    obtain ⟨node, ht⟩ := Cache.touch_touched htouch
    have hmem : it ∈ c.list := (hc.live it).mp (by rw [ht.live]; rfl)
    refine .loses rfl (Nat.le_of_eq ?_) (by rw [Cache.bucketCount, ht.hash]; rfl)
    rw [Cache.size, ht.list, List.length_append, List.length_singleton,
      List.length_erase_add_one hmem, Cache.size]
  | clearExpired now throws =>
    obtain ⟨⟨x, threw⟩, hclear, heq⟩ := Option.map_eq_some_iff.mp h
    obtain ⟨hsize, hcount⟩ := clearExpired_resizes hclear
    cases heq
    refine .loses ?_ hsize hcount
    cases threw with
    | false => rfl
    | true => rfl

theorem step_doubling (hg : g.cache.Accounted) {op : Op K V U} (h : step fs g op = some g')
    (hpos : 0 < g.cache.bucketCount) (hpeak : g.cache.size ≤ g.peak) : g'.cache.Accounted ∧
      (g'.doubling = g.doubling.gain ∨ ∃ n, g'.doubling = g.doubling.lose n) := by
  obtain ⟨⟨out, c⟩, hcall, rfl⟩ := Option.map_eq_some_iff.mp h
  refine ⟨call_accounted hg hcall, ?_⟩
  obtain ⟨hnew, hsize, hcount⟩ | ⟨hnew, hsize, hcount⟩ := call_resizes hg hcall
  · left
    simp only [doubling, Doubling.gain, hnew, hsize, hcount, if_true]
    by_cases hfull : g.cache.size + 1 ≥ g.cache.bucketCount
    · have hne : g.cache.bucketCount * 2 ≠ g.cache.bucketCount := by omega
      simp [hfull, hne]
    · simp [hfull]
  · right
    refine ⟨g.cache.size - c.size, ?_⟩
    have hback : g.cache.size - (g.cache.size - c.size) = c.size := by omega
    have hmax : max g.peak c.size = g.peak := by omega
    simp [doubling, Doubling.lose, hnew, hcount, hback, hmax]

end

def Counted (g : Growing K V) : Prop := g.cache.Accounted ∧ Doubling.Grown 16 g.doubling

theorem step_counted {fs : Functors K U} (g : Growing K V) (op : Op K V U) (g' : Growing K V)
    (hstep : step fs g op = some g') (h : Counted g) : Counted g' := by
  obtain ⟨hc, hgrown⟩ := h
  obtain ⟨hc', hgain | ⟨n, hlose⟩⟩ := step_doubling hc hstep
    (Nat.lt_of_le_of_lt (Nat.zero_le _) hgrown.room) hgrown.size
  · exact ⟨hc', hgain ▸ hgrown.gain⟩
  · exact ⟨hc', hlose ▸ hgrown.lose n⟩

/-- In every life of a cache, whatever is inserted, used and removed. -/
theorem growth_amortized {fs : Functors K U} {timeout : Int64} {buckets : Ptr} {g : Growing K V}
    (h : Runs.Reachable (step fs) (start timeout buckets) g) : Amortized g := by
  have hstart : Counted (start timeout buckets : Growing K V) :=
    ⟨Cache.create_accounted timeout buckets, Doubling.start_grown (by decide)⟩
  obtain ⟨-, hgrown⟩ := h.invariant hstart step_counted
  exact ⟨hgrown.room, hgrown.least, hgrown.moved, hgrown.moved_le⟩

def filledAndCleared : List (Op Nat Nat Nat) := manyInserts ++ [.clearExpired 20 fun _ _ => false]

theorem filledAndCleared_amortized : ∃ g : Growing Nat Nat,
    Runs.exec (step natFunctors) (start 10 99) filledAndCleared = some g ∧ g.cache.size = 0 ∧
      g.cache.bucketCount = 32 ∧ g.peak = 17 ∧ g.relinked = 16 ∧ Amortized g := by
  obtain ⟨g, hg, hsize, hcount, hpeak, hrelinked⟩ : ∃ g : Growing Nat Nat,
      Runs.exec (step natFunctors) (start 10 99) filledAndCleared = some g ∧ g.cache.size = 0 ∧
        g.cache.bucketCount = 32 ∧ g.peak = 17 ∧ g.relinked = 16 :=
    ⟨_, rfl, rfl, rfl, rfl, rfl⟩
  exact ⟨g, hg, hsize, hcount, hpeak, hrelinked, growth_amortized ⟨filledAndCleared, hg⟩⟩

end Growing
end Flyzero.LruCache
