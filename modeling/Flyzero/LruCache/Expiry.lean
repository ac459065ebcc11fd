import Flyzero.LruCache.Refinement

/-! Expiry of an `LruCache` whose calls come with times that never decrease. -/
namespace Flyzero.LruCache
variable {K V U : Type*}

/-- A cache with the latest time it was given and the times at which its nodes were inserted and
touched. -/
structure History (K V : Type*) where
  cache : Cache K V
  clock : Int64
  uses : List (Ptr × Int64)

def History.start (timeout : Int64) (buckets : Ptr) : History K V :=
  { cache := create timeout buckets, clock := Int64.minValue, uses := [] }

/-- The call comes no earlier than the one before, and its deadline can be represented. -/
def InTime (timeout clock : Int64) : Op K V U → Prop
  | .insert now _ _ _ _ | .touch now _ =>
    clock.toInt ≤ now.toInt ∧ now.toInt + timeout.toInt < 2 ^ 63
  | .clearExpired now _ => clock.toInt ≤ now.toInt
  | .find _ | .erase _ => True

instance (timeout clock : Int64) : DecidablePred (@InTime K V U timeout clock) := fun op => by
  cases op <;> unfold InTime <;> infer_instance

def Op.clock (clock : Int64) : Op K V U → Int64
  | .insert now _ _ _ _ | .touch now _ | .clearExpired now _ => now
  | .find _ | .erase _ => clock

/-- The node a call has used, unless it only found the key there. -/
def Op.used : Op K V U → Out K V → List (Ptr × Int64)
  | .insert now _ _ _ _, .inserted it true => [(it, now)]
  | .touch now it, _ => [(it, now)]
  | _, _ => []

def History.step (fs : Functors K U) (s : History K V) (op : Op K V U) : Option (History K V) :=
  if InTime s.cache.timeout s.clock op then
    (call fs s.cache op).map fun (out, cache) =>
      { cache, clock := op.clock s.clock, uses := s.uses ++ op.used out }
  else none

def lastUses : List (Ptr × Int64) → List (Ptr × Int64)
  | [] => []
  | u :: us => if u.1 ∈ us.map (·.1) then lastUses us else u :: lastUses us

theorem lastUses_sublist (us : List (Ptr × Int64)) : (lastUses us).Sublist us := by
  induction us with
  | nil => exact .slnil
  | cons u us ih =>
    rw [lastUses]
    split
    · exact ih.cons u
    · exact ih.cons_cons u

theorem lastUses_concat (us : List (Ptr × Int64)) (u : Ptr × Int64) :
    lastUses (us ++ [u]) = (lastUses us).filter (fun v => v.1 ≠ u.1) ++ [u] := by
  induction us with
  | nil => rfl
  | cons v us ih =>
    have hmem : v.1 ∈ (us ++ [u]).map (·.1) ↔ v.1 ∈ us.map (·.1) ∨ v.1 = u.1 := by
      rw [List.map_append, List.mem_append, List.map_singleton, List.mem_singleton]
    rw [List.cons_append, lastUses, lastUses, ih]
    by_cases hus : v.1 ∈ us.map (·.1)
    · rw [if_pos (hmem.mpr (.inl hus)), if_pos hus]
    · rw [if_neg hus]
      by_cases hvu : v.1 = u.1
      · rw [if_pos (hmem.mpr (.inr hvu)), List.filter_cons_of_neg (by simp [hvu])]
      · rw [if_neg (fun h => (hmem.mp h).elim hus hvu),
          List.filter_cons_of_pos (by simpa using hvu), List.cons_append]

def Entry.kv (e : Entry K V) : K × V := (e.key, e.value)

def Entry.Due (now : Int64) (e : Entry K V) : Prop := e.deadline ≤ now

instance (now : Int64) : DecidablePred (@Entry.Due K V now) := fun e =>
  inferInstanceAs (Decidable (e.deadline ≤ now))

def Quiet (throws : List (K × V) → K × V → Bool) (calls : List (K × V)) : List (K × V) → Prop
  | [] => True
  | kv :: kvs => throws calls kv = false ∧ Quiet throws (calls ++ [kv]) kvs

section
variable {now : Int64} {throws : List (K × V) → K × V → Bool}

theorem not_gt_of_due {e : Entry K V} (h : e.Due now) : ¬ e.deadline > now := Int64.not_lt.mpr h

theorem gt_of_not_due {e : Entry K V} (h : ¬ e.Due now) : e.deadline > now := Int64.not_le.mp h

theorem expire_cons (calls : List (K × V)) (count : Nat) (e : Entry K V) (es : List (Entry K V)) :
    Recency.expire now throws calls count (e :: es) =
      if e.deadline > now then (.cleared calls count, e :: es)
      else if throws calls e.kv then (.threw (calls ++ [e.kv]), e :: es)
      else Recency.expire now throws (calls ++ [e.kv]) (count + 1) es := rfl

theorem expire_append (calls : List (K × V)) (count : Nat) (es rest : List (Entry K V))
    (hdue : ∀ e ∈ es, e.Due now) (hquiet : Quiet throws calls (es.map Entry.kv)) :
    Recency.expire now throws calls count (es ++ rest) =
      Recency.expire now throws (calls ++ es.map Entry.kv) (count + es.length) rest := by
  induction es generalizing calls count with
  | nil => rw [List.nil_append, List.map_nil, List.append_nil, List.length_nil, Nat.add_zero]
  | cons e es ih =>
    obtain ⟨hthrows, hquiet⟩ := hquiet
    have hlate := not_gt_of_due (hdue e List.mem_cons_self)
    rw [List.cons_append, expire_cons, if_neg hlate, if_neg (Bool.eq_false_iff.mp hthrows),
      ih _ _ (fun d hd => hdue d (List.mem_cons_of_mem _ hd)) hquiet,
      List.map_cons, List.append_assoc, List.length_cons, Nat.add_right_comm, Nat.add_assoc]
    rfl

theorem expire_later (calls : List (K × V)) (count : Nat) (es : List (Entry K V))
    (hlater : ∀ e ∈ es, ¬ e.Due now) :
    Recency.expire now throws calls count es = (.cleared calls count, es) := by
  cases es with
  | nil => rfl
  | cons e es => rw [expire_cons, if_pos (gt_of_not_due (hlater e List.mem_cons_self))]

theorem expire_throws (calls : List (K × V)) (count : Nat) (e : Entry K V) (es : List (Entry K V))
    (hdue : e.Due now) (hthrows : throws calls e.kv = true) :
    Recency.expire now throws calls count (e :: es) = (.threw (calls ++ [e.kv]), e :: es) := by
  rw [expire_cons, if_neg (not_gt_of_due hdue), if_pos hthrows]

theorem due_append_later {es : List (Entry K V)}
    (h : es.Pairwise fun a b => a.deadline.toInt ≤ b.deadline.toInt) :
    es = es.filter (Entry.Due now ·) ++ es.filter (¬ Entry.Due now ·) := by
  induction es with
  | nil => rfl
  | cons e es ih =>
    have ih := ih h.of_cons
    by_cases he : e.Due now
    · rw [List.filter_cons_of_pos (by simpa using he), List.filter_cons_of_neg (by simpa using he),
        List.cons_append, ← ih]
    · have hnone : es.filter (Entry.Due now ·) = [] := by
        rw [List.filter_eq_nil_iff]
        intro d hd hdue
        have hle := List.rel_of_pairwise_cons h hd
        have hdue : d.Due now := by simpa using hdue
        rw [Entry.Due, Int64.le_iff_toInt_le] at he hdue
        omega
      rw [hnone, List.nil_append] at ih
      rw [List.filter_cons_of_neg (by simpa using he), List.filter_cons_of_pos (by simpa using he),
        hnone, List.nil_append, ← ih]

end

/-- The entries, in their order, are last uses with the deadlines that follow from them. -/
def Dated (timeout : Int64) (uses : List (Ptr × Int64)) (es : List (Entry K V)) : Prop :=
  (es.map fun e => (e.it, e.deadline.toInt)).Sublist
    ((lastUses uses).map fun u => (u.1, u.2.toInt + timeout.toInt))

structure Timely (timeout clock : Int64) (uses : List (Ptr × Int64)) : Prop where
  sorted : uses.Pairwise fun u v => u.2.toInt ≤ v.2.toInt
  past : ∀ u ∈ uses, u.2.toInt ≤ clock.toInt

section
variable {timeout clock : Int64} {uses : List (Ptr × Int64)} {es es' : List (Entry K V)}

theorem Dated.sublist (h : Dated timeout uses es) (hes : es'.Sublist es) :
    Dated timeout uses es' := (hes.map _).trans h

theorem Dated.use (h : Dated timeout uses es) {now : Int64} {e : Entry K V}
    (hother : ∀ d ∈ es, d.it ≠ e.it) (he : e.deadline = now + timeout)
    (htimeout : 0 ≤ timeout.toInt) (hfits : now.toInt + timeout.toInt < 2 ^ 63) :
    Dated timeout (uses ++ [(e.it, now)]) (es ++ [e]) := by
  have hlow := now.le_toInt
  have hdeadline : e.deadline.toInt = now.toInt + timeout.toInt := by
    rw [he, Int64.toInt_add, Int.bmod_eq_of_le (by omega) (by omega)]
  rw [Dated, lastUses_concat, List.map_append, List.map_append, List.map_singleton,
    List.map_singleton, hdeadline]
  apply List.Sublist.append _ (List.Sublist.refl _)
  -- the earlier uses of the node are not among those the other entries come from
  have hkeep : (es.map fun e => (e.it, e.deadline.toInt)).filter (fun u => u.1 ≠ e.it) =
      es.map fun e => (e.it, e.deadline.toInt) := by
    rw [List.filter_eq_self]
    intro u hu
    obtain ⟨d, hd, rfl⟩ := List.mem_map.mp hu
    simpa using hother d hd
  have hfilter := List.Sublist.filter (fun u => decide (u.1 ≠ e.it)) h
  rw [hkeep, List.filter_map] at hfilter
  exact hfilter

theorem Dated.sorted (h : Dated timeout uses es) (ht : Timely timeout clock uses) :
    es.Pairwise fun a b => a.deadline.toInt ≤ b.deadline.toInt := by
  have huses := ht.sorted.sublist (lastUses_sublist uses)
  have hmap : ((lastUses uses).map fun u => (u.1, u.2.toInt + timeout.toInt)).Pairwise
      fun u v => u.2 ≤ v.2 := by
    rw [List.pairwise_map]
    exact huses.imp fun hle => Int.add_le_add_right hle _
  have hes : (es.map fun e => (e.it, e.deadline.toInt)).Pairwise fun u v => u.2 ≤ v.2 :=
    hmap.sublist h
  rw [List.pairwise_map] at hes
  exact hes

theorem Timely.later (h : Timely timeout clock uses) {now : Int64}
    (hnow : clock.toInt ≤ now.toInt) : Timely timeout now uses :=
  ⟨h.sorted, fun u hu => Int.le_trans (h.past u hu) hnow⟩

theorem Timely.use (h : Timely timeout clock uses) {now : Int64} (hnow : clock.toInt ≤ now.toInt)
    (it : Ptr) : Timely timeout now (uses ++ [(it, now)]) := by
  refine ⟨List.pairwise_append.mpr ⟨h.sorted, List.pairwise_singleton _ _, ?_⟩, ?_⟩
  · intro u hu v hv
    rw [List.mem_singleton.mp hv]
    exact Int.le_trans (h.past u hu) hnow
  · intro u hu
    rcases List.mem_append.mp hu with hu | hu
    · exact Int.le_trans (h.past u hu) hnow
    · obtain rfl := List.mem_singleton.mp hu
      exact Int.le_refl _

theorem expire_sublist {now : Int64} {throws : List (K × V) → K × V → Bool}
    (calls : List (K × V)) (count : Nat) (es : List (Entry K V)) :
    (Recency.expire now throws calls count es).2.Sublist es := by
  induction es generalizing calls count with
  | nil => exact .slnil
  | cons e es ih =>
    rw [expire_cons]
    split
    · exact .refl _
    · split
      · exact .refl _
      · exact (ih _ _).cons e

theorem call_cases (clock : Int64) {fs : Functors K U} {op : Op K V U} {out : Out K V}
    (hcall : Recency.call fs timeout es op = some (out, es')) :
    op.used out = [] ∧ es'.Sublist es ∨
    ∃ now e kept, op.used out = [(e.it, now)] ∧ op.clock clock = now ∧ kept.Sublist es ∧
      es' = kept ++ [e] ∧ (∀ d ∈ kept, d.it ≠ e.it) ∧ e.deadline = now + timeout := by
  cases op with
  | insert now key value node buckets =>
    rw [Recency.call] at hcall
    split at hcall
    · cases hcall
      exact .inl ⟨rfl, .refl _⟩
    · split at hcall <;> cases hcall
      rename_i hnode
      refine .inr ⟨now, _, es, rfl, rfl, .refl _, rfl, ?_, rfl⟩
      intro d hd heq
      have heq : d.it = node := heq
      exact hnode (heq ▸ List.mem_map_of_mem hd)
  | find key =>
    cases hcall
    exact .inl ⟨rfl, .refl _⟩
  | erase it =>
    rw [Recency.call] at hcall
    split at hcall <;> cases hcall
    exact .inl ⟨rfl, List.filter_sublist⟩
  | touch now it =>
    obtain ⟨e, he, heq⟩ := Option.map_eq_some_iff.mp hcall
    cases heq
    have hit : e.it = it := by simpa using List.find?_some he
    subst hit
    refine .inr ⟨now, { e with deadline := now + timeout }, _, rfl, rfl, List.filter_sublist, rfl,
      ?_, rfl⟩
    intro d hd
    simpa using (List.mem_filter.mp hd).2
  | clearExpired now throws =>
    have hes : (Recency.expire now throws [] 0 es).2.Sublist es := expire_sublist [] 0 es
    rw [Option.some.inj hcall] at hes
    exact .inl ⟨rfl, hes⟩

theorem InTime.clock_le {op : Op K V U} (h : InTime timeout clock op) :
    clock.toInt ≤ (op.clock clock).toInt := by
  cases op with
  | insert | touch => exact h.1
  | clearExpired => exact h
  | find | erase => exact Int.le_refl _

theorem InTime.fits {op : Op K V U} {out : Out K V} {u : Ptr × Int64} (h : InTime timeout clock op)
    (hused : op.used out = [u]) : u.2.toInt + timeout.toInt < 2 ^ 63 := by
  cases op with
  | insert now key value node buckets =>
    cases out with
    | inserted it new =>
      cases new with
      | false => cases hused
      | true =>
        cases hused
        exact h.2
    | _ => cases hused
  | touch now it =>
    cases hused
    exact h.2
  | _ => cases hused

theorem call_dated {fs : Functors K U} (htimeout : 0 ≤ timeout.toInt) {op : Op K V U}
    {out : Out K V} (hcall : Recency.call fs timeout es op = some (out, es'))
    (htime : InTime timeout clock op) (hd : Dated timeout uses es)
    (ht : Timely timeout clock uses) :
    Dated timeout (uses ++ op.used out) es' ∧
      Timely timeout (op.clock clock) (uses ++ op.used out) := by
  have hclock := htime.clock_le
  rcases call_cases clock hcall with
    ⟨hused, hsub⟩ | ⟨now, e, kept, hused, hnow, hsub, rfl, hother, he⟩
  · rw [hused, List.append_nil]
    exact ⟨hd.sublist hsub, ht.later hclock⟩
  · have hfits := htime.fits hused
    rw [hnow] at hclock ⊢
    rw [hused]
    exact ⟨(hd.sublist hsub).use hother he htimeout hfits, ht.use hclock e.it⟩

end

/-- A call of `clear_expired` removes exactly the due entries, in the order of the list; when the
callback throws, exactly those before the one it threw at. -/
structure ExpiresExactly (fs : Functors K U) (c : Cache K V) (now : Int64)
    (throws : List (K × V) → K × V → Bool) : Prop where
  quiet : Quiet throws [] ((c.entries.filter (Entry.Due now ·)).map Entry.kv) →
    ∃ c', call fs c (.clearExpired now throws) = some
        (.cleared ((c.entries.filter (Entry.Due now ·)).map Entry.kv)
          (c.entries.filter (Entry.Due now ·)).length, c') ∧
      c'.entries = c.entries.filter (¬ Entry.Due now ·) ∧ Sound fs c'
  throws : ∀ before e after, c.entries.filter (Entry.Due now ·) = before ++ e :: after →
    Quiet throws [] (before.map Entry.kv) → throws (before.map Entry.kv) e.kv = true →
    ∃ c', call fs c (.clearExpired now throws) = some
        (.threw (before.map Entry.kv ++ [e.kv]), c') ∧
      c'.entries = c.entries.drop before.length ∧ Sound fs c'

structure Exact (fs : Functors K U) (timeout : Int64) (s : History K V) : Prop where
  dated : Dated timeout s.uses s.cache.entries
  sorted : s.cache.entries.Pairwise fun a b => a.deadline.toInt ≤ b.deadline.toInt
  expires : ∀ now throws, ExpiresExactly fs s.cache now throws

theorem Cache.Inv.expiresExactly {fs : Functors K U} {c : Cache K V} (hfs : fs.Consistent)
    (h : c.Inv fs) (hsorted : c.entries.Pairwise fun a b => a.deadline.toInt ≤ b.deadline.toInt)
    (now : Int64) (throws : List (K × V) → K × V → Bool) : ExpiresExactly fs c now throws := by
  obtain ⟨hmap, hinv⟩ := call_mirrors hfs h (.clearExpired now throws)
  have hsplit : c.entries = c.entries.filter (Entry.Due now ·) ++
      c.entries.filter (¬ Entry.Due now ·) := due_append_later hsorted
  have hcall : ∀ out es, Recency.expire now throws [] 0 c.entries = (out, es) →
      ∃ c', call fs c (.clearExpired now throws) = some (out, c') ∧ c'.entries = es ∧
        Sound fs c' := by
    intro out es hexpire
    rw [Recency.call, hexpire] at hmap
    obtain ⟨⟨out', c'⟩, hc', heq⟩ := Option.map_eq_some_iff.mp hmap
    cases heq
    exact ⟨c', hc', rfl, (hinv _ hc').1.sound⟩
  have hdue : ∀ e ∈ c.entries.filter (Entry.Due now ·), e.Due now := by
    intro e he
    simpa using (List.mem_filter.mp he).2
  have hlater : ∀ e ∈ c.entries.filter (¬ Entry.Due now ·), ¬ e.Due now := by
    intro e he
    simpa using (List.mem_filter.mp he).2
  constructor
  · intro hquiet
    apply hcall
    have happend := expire_append [] 0 _ (c.entries.filter (¬ Entry.Due now ·)) hdue hquiet
    rw [← hsplit, expire_later _ _ _ hlater, List.nil_append, Nat.zero_add] at happend
    exact happend
  · intro before e after heq hquiet hthrows
    apply hcall
    rw [heq, List.append_assoc, List.cons_append] at hsplit
    have hbefore : ∀ d ∈ before, d.Due now := fun d hd =>
      hdue d (heq ▸ List.mem_append_left _ hd)
    have he : e.Due now := hdue e (heq ▸ List.mem_append_right _ List.mem_cons_self)
    have happend := expire_append [] 0 before (e :: (after ++ c.entries.filter (¬ Entry.Due now ·)))
      hbefore hquiet
    rw [← hsplit, List.nil_append, Nat.zero_add, expire_throws _ _ _ _ he hthrows] at happend
    have hrest : c.entries.drop before.length =
        e :: (after ++ c.entries.filter (¬ Entry.Due now ·)) := by
      conv_lhs => rw [hsplit, List.drop_left]
    rw [happend, hrest]

structure History.Inv (fs : Functors K U) (timeout : Int64) (s : History K V) : Prop where
  cache : s.cache.Inv fs
  timeout_eq : s.cache.timeout = timeout
  dated : Dated timeout s.uses s.cache.entries
  timely : Timely timeout s.clock s.uses

theorem History.start_inv (fs : Functors K U) (timeout : Int64) (buckets : Ptr) :
    (start timeout buckets : History K V).Inv fs timeout :=
  ⟨Cache.create_inv .., rfl, .slnil, .nil, nofun⟩

theorem History.step_inv {fs : Functors K U} (hfs : fs.Consistent) {timeout : Int64}
    (htimeout : 0 ≤ timeout.toInt) (s : History K V) (op : Op K V U) (t : History K V)
    (hstep : s.step fs op = some t) (h : s.Inv fs timeout) : t.Inv fs timeout := by
  obtain ⟨htime, hstep⟩ := Option.ite_none_right_eq_some.mp hstep
  obtain ⟨⟨out, c⟩, hcall, rfl⟩ := Option.map_eq_some_iff.mp hstep
  obtain ⟨hmap, hnext⟩ := call_mirrors hfs h.cache op
  rw [hcall, Option.map_some, h.timeout_eq] at hmap
  rw [h.timeout_eq] at hnext htime
  obtain ⟨hcache, htime_eq⟩ := hnext _ hcall
  obtain ⟨hdated, htimely⟩ := call_dated htimeout hmap.symm htime h.dated h.timely
  exact ⟨hcache, htime_eq, hdated, htimely⟩

/-- In every history of calls in time the entries are sorted by deadline, which is their last use
plus the timeout, and expiry is exact. -/
theorem reachable_exact {fs : Functors K U} (hfs : fs.Consistent) {timeout : Int64}
    (htimeout : 0 ≤ timeout.toInt) {buckets : Ptr} {s : History K V}
    (h : Runs.Reachable (History.step fs) (.start timeout buckets) s) : Exact fs timeout s := by
  have hinv := h.invariant (History.start_inv fs timeout buckets) (History.step_inv hfs htimeout)
  have hsorted := hinv.dated.sorted hinv.timely
  exact ⟨hinv.dated, hsorted, hinv.cache.expiresExactly hfs hsorted⟩

def touchedHistory : List (Op Nat Nat Nat) :=
  [.insert 0 7 70 1 100, .insert 4 8 80 2 100, .touch 6 1, .insert 9 9 90 3 100,
    .clearExpired 14 fun _ _ => false]

theorem touchedHistory_exact :
    ∃ s, Runs.exec (History.step natFunctors) (.start 10 99) touchedHistory = some s ∧
      s.cache.entries = [⟨1, 7, 70, 16⟩, ⟨3, 9, 90, 19⟩] ∧ Exact natFunctors 10 s := by
  obtain ⟨s, hs, hes⟩ : ∃ s,
      Runs.exec (History.step natFunctors) (.start 10 99) touchedHistory = some s ∧
        s.cache.entries = [⟨1, 7, 70, 16⟩, ⟨3, 9, 90, 19⟩] := ⟨_, rfl, rfl⟩
  exact ⟨s, hs, hes, reachable_exact natFunctors_consistent (by decide) ⟨touchedHistory, hs⟩⟩

end Flyzero.LruCache
