import Flyzero.CircularQueue.Fifo
import Flyzero.Lib.Runs

/-! The number of elements of a queue when constructors throw. -/
namespace Flyzero.CircularQueue
open ByteMem
variable {ty : ObjectType}

/-- What a constructor leaves in its memory, whole or up to an exception. -/
inductive Construction where
  | done (bytes : List UInt8)
  | thrown (bytes : List UInt8)

inductive Pushed where
  | rejected
  | constructed (slot : Nat)
  | threw

/-- `push` with a constructor that may throw; the index has moved by then. -/
def Queue.construct (q : Queue) (mem : Mem) (c : Construction) : Option (Pushed × Mem × Queue) :=
  if q.buffer = 0 then none
  else if q.full then some (.rejected, mem, q)
  else
    (q.at mem q.widx).map fun slot =>
      let q := { q with widx := q.widx + 1#64 }
      match c with
      | .done bytes => (.constructed slot, store mem slot bytes, q)
      | .thrown bytes => (.threw, store mem slot bytes, q)

def Queue.Room (q : Queue) : Prop := q.buffer ≠ 0 ∧ q.full = false

instance (q : Queue) : Decidable q.Room := inferInstanceAs (Decidable (_ ∧ _))

/-- A queue with the objects that have been constructed in it and not yet destroyed, by the indices
they were pushed at. -/
structure Account (ty : ObjectType) where
  mem : Mem
  queue : Queue
  live : List (BitVec 64 × ty.Value)

inductive Event (V : Type) where
  | push (v : V)
  | throwingPush (bytes : List UInt8)
  | pop
  | clear

def Event.throwing {V : Type} : Event V → Bool
  | .throwingPush _ => true
  | _ => false

namespace Account

def left (s : Account ty) (n : Nat) : List (BitVec 64 × ty.Value) :=
  s.live.filter fun e => n ≤ (e.1 - s.queue.ridx).toNat

def step (s : Account ty) : Event ty.Value → Option (Account ty)
  | .push v =>
    (s.queue.construct s.mem (.done (ty.bytes v))).map fun (pushed, mem, queue) =>
      { mem, queue, live :=
          match pushed with
          | .constructed _ => s.live ++ [(s.queue.widx, v)]
          | _ => s.live }
  | .throwingPush bytes =>
    (s.queue.construct s.mem (.thrown bytes)).map fun (_, mem, queue) => { s with mem, queue }
  | .pop =>
    (s.queue.pop s.mem).map fun (slot, queue) =>
      { s with queue, live := s.left slot.toList.length }
  | .clear =>
    (s.queue.clear s.mem).map fun ((slots, _), queue) =>
      { s with queue, live := s.left slots.length }

def elements (s : Account ty) : List (Option ty.Value) :=
  (List.range s.queue.size.toNat).map fun i => s.live.lookup (s.queue.ridx + BitVec.ofNat 64 i)

structure Accurate (s : Account ty) : Prop where
  size : s.queue.size.toNat = s.live.length
  le : s.queue.size.toNat ≤ s.queue.capacity.toNat

structure SameView (s t : Account ty) : Prop where
  size : t.queue.size = s.queue.size
  empty : t.queue.empty = s.queue.empty
  full : t.queue.full = s.queue.full
  elements : t.elements = s.elements

def Keeps (s : Account ty) (e : Event ty.Value) : Prop :=
  ∀ t, s.step e = some t → t.Accurate ∧ (e.throwing = true → SameView s t)

def Returns (s : Account ty) (e : Event ty.Value) : Prop := e.throwing = true → ¬ s.queue.Room

/-- The size is right before and after every call of a history, and a push that throws changes
nothing. -/
def Truthful (s : Account ty) (es : List (Event ty.Value)) : Prop :=
  s.Accurate ∧ Runs.Along step Keeps s es

structure Tidy (s : Account ty) (lo hi : Nat) : Prop where
  ridx : s.queue.ridx = BitVec.ofNat 64 lo
  widx : s.queue.widx = BitVec.ofNat 64 hi
  le : lo ≤ hi
  live : s.live.map (·.1) = (List.range' lo (hi - lo)).map (BitVec.ofNat 64)
  buffer : s.queue.buffer ≠ 0 → ∃ k, At s.queue k lo hi
  null : s.queue.buffer = 0 → lo = hi

end Account

theorem filter_cursors (lo : Nat) {n d : Nat} (hn : n < 2 ^ 64) (hd : d ≤ n) :
    ((List.range' lo n).map (BitVec.ofNat 64)).filter
        (fun x => d ≤ (x - BitVec.ofNat 64 lo).toNat) =
      (List.range' (lo + d) (n - d)).map (BitVec.ofNat 64) := by
  have hdist : ∀ p ∈ List.range' lo n, (BitVec.ofNat 64 p - BitVec.ofNat 64 lo).toNat = p - lo := by
    intro p hp
    obtain ⟨hlo, hhi⟩ := List.mem_range'_1.mp hp
    exact Window.cursor_sub hlo (by omega)
  have hsplit : List.range' lo n = List.range' lo d ++ List.range' (lo + d) (n - d) := by
    rw [List.range'_append_1, Nat.add_sub_cancel' hd]
  rw [List.filter_map, hsplit, List.filter_append]
  have hfirst : (List.range' lo d).filter
      ((fun x => decide (d ≤ (x - BitVec.ofNat 64 lo).toNat)) ∘ BitVec.ofNat 64) = [] := by
    rw [List.filter_eq_nil_iff]
    intro p hp
    have hmem : p ∈ List.range' lo n := hsplit ▸ List.mem_append_left _ hp
    have hp := List.mem_range'_1.mp hp
    rw [Function.comp_apply, hdist p hmem, decide_eq_true_eq]
    omega
  have hrest : (List.range' (lo + d) (n - d)).filter
      ((fun x => decide (d ≤ (x - BitVec.ofNat 64 lo).toNat)) ∘ BitVec.ofNat 64) =
        List.range' (lo + d) (n - d) := by
    rw [List.filter_eq_self]
    intro p hp
    have hmem : p ∈ List.range' lo n := hsplit ▸ List.mem_append_right _ hp
    have hp := List.mem_range'_1.mp hp
    rw [Function.comp_apply, hdist p hmem, decide_eq_true_eq]
    omega
  rw [hfirst, hrest, List.nil_append]

section
variable {q : Queue} {k lo hi : Nat}

theorem construct_eq (h : At q k lo hi) (hroom : q.Room) (mem : Mem) (c : Construction) :
    ∃ pushed mem', q.construct mem c = some (pushed, mem', { q with widx := q.widx + 1#64 }) ∧
      (pushed = .threw ↔ ∃ bytes, c = .thrown bytes) ∧ pushed ≠ .rejected := by
  rw [Queue.construct, if_neg hroom.1, if_neg (Bool.eq_false_iff.mp hroom.2), h.widx,
    h.at_eq hroom.1]
  cases c with
  | done bytes => exact ⟨_, _, rfl, by simp, nofun⟩
  | thrown bytes => exact ⟨_, _, rfl, by simp, nofun⟩

theorem construct_full (hroom : ¬ q.Room) {mem : Mem} {c : Construction}
    {r : Pushed × Mem × Queue} (hpush : q.construct mem c = some r) : r = (.rejected, mem, q) := by
  rw [Queue.construct] at hpush
  obtain ⟨hbuffer, hpush⟩ := Option.ite_none_left_eq_some.mp hpush
  have hfull : q.full = true := by
    by_contra hfull
    exact hroom ⟨hbuffer, Bool.eq_false_iff.mpr hfull⟩
  rw [if_pos hfull] at hpush
  exact (Option.some.inj hpush).symm

theorem popAll_spec (h : At q k lo hi) (hbuffer : q.buffer ≠ 0) (mem : Mem) {n : Nat}
    (hn : lo + n ≤ hi) : ∃ slots r, q.popAll mem n = some (slots, r) ∧ slots.length = n ∧
      At r k (lo + n) hi ∧ r.buffer = q.buffer := by
  induction n generalizing q lo with
  | zero => exact ⟨[], q, rfl, rfl, h, rfl⟩
  | succ n ih =>
    have hempty : ¬ q.empty = true := by
      rw [h.empty_iff]
      omega
    obtain ⟨slot, hpop⟩ : ∃ slot, q.pop mem = some (some slot, { q with ridx := q.ridx + 1#64 }) :=
      ⟨_, h.pop_eq hbuffer (by omega) mem⟩
    obtain ⟨slots, r, hall, hlen, hat, hsame⟩ := ih (h.pop hempty) hbuffer (by omega)
    rw [Nat.add_right_comm] at hat
    refine ⟨slot :: slots, r, ?_, congrArg (· + 1) hlen, hat, hsame⟩
    rw [Queue.popAll, hpop, Option.bind_some]
    dsimp only
    rw [hall]
    rfl

end

namespace Account
variable {s t : Account ty} {lo hi : Nat}

theorem Tidy.lt (h : s.Tidy lo hi) : hi - lo < 2 ^ 64 := by
  by_cases hnull : s.queue.buffer = 0
  · have heq := h.null hnull
    omega
  · obtain ⟨k, hat⟩ := h.buffer hnull
    have hcap := hat.cap ▸ s.queue.capacity.isLt
    have hroom := hat.room
    omega

theorem Tidy.size (h : s.Tidy lo hi) : s.queue.size.toNat = hi - lo := by
  rw [Queue.size, h.ridx, h.widx]
  exact Window.cursor_sub h.le h.lt

theorem Tidy.accurate (h : s.Tidy lo hi) : s.Accurate := by
  have hlen := congrArg List.length h.live
  rw [List.length_map, List.length_map, List.length_range'] at hlen
  refine ⟨by rw [h.size, hlen], ?_⟩
  rw [h.size]
  by_cases hnull : s.queue.buffer = 0
  · have heq := h.null hnull
    omega
  · obtain ⟨k, hat⟩ := h.buffer hnull
    have hroom := hat.room
    have hpos := Nat.two_pow_pos k
    rw [hat.cap]
    omega

theorem Tidy.left (h : s.Tidy lo hi) {n : Nat} (hn : lo + n ≤ hi) :
    (s.left n).map (·.1) = (List.range' (lo + n) (hi - (lo + n))).map (BitVec.ofNat 64) := by
  have hfilter := filter_cursors lo h.lt (show n ≤ hi - lo by omega)
  rw [← h.live, List.filter_map, ← h.ridx, Nat.sub_sub] at hfilter
  exact hfilter

theorem Tidy.step (h : s.Tidy lo hi) {e : Event ty.Value} (hreturns : Returns s e)
    (hstep : s.step e = some t) : ∃ lo hi, t.Tidy lo hi := by
  cases e with
  | push v =>
    obtain ⟨⟨pushed, mem, queue⟩, hpush, heq⟩ := Option.map_eq_some_iff.mp hstep
    cases heq
    by_cases hroom : s.queue.Room
    · obtain ⟨k, hat⟩ := h.buffer hroom.1
      obtain ⟨_, _, hpush', hthrew, hrejected⟩ := construct_eq hat hroom s.mem _
      rw [hpush'] at hpush
      cases hpush
      cases pushed with
      | rejected => exact absurd rfl hrejected
      | threw => simp at hthrew
      | constructed slot =>
        have hnext := hat.push (Bool.eq_false_iff.mp hroom.2)
        have hle := h.le
        refine ⟨lo, hi + 1, h.ridx, hnext.widx, hnext.le, ?_, fun _ => ⟨k, hnext⟩,
          fun hnull => absurd hnull hroom.1⟩
        rw [Nat.sub_add_comm hle, List.range'_1_concat, List.map_append, List.map_append, h.live,
          Nat.add_sub_cancel' hle, h.widx]
        rfl
    · have hsame := construct_full hroom hpush
      cases hsame
      exact ⟨lo, hi, h⟩
  | throwingPush bytes =>
    obtain ⟨r, hpush, heq⟩ := Option.map_eq_some_iff.mp hstep
    have hsame := construct_full (hreturns rfl) hpush
    cases hsame
    cases heq
    exact ⟨lo, hi, h⟩
  | pop =>
    obtain ⟨⟨slot, queue⟩, hpop, heq⟩ := Option.map_eq_some_iff.mp hstep
    cases heq
    obtain ⟨hbuffer, -⟩ := Option.ite_none_left_eq_some.mp hpop
    obtain ⟨k, hat⟩ := h.buffer hbuffer
    by_cases hempty : s.queue.empty = true
    · rw [Queue.pop, if_neg hbuffer, if_pos hempty] at hpop
      cases hpop
      have hleft := h.left (n := 0) h.le
      exact ⟨lo, hi, h.ridx, h.widx, h.le, hleft, h.buffer, h.null⟩
    · have hne := mt hat.empty_iff.mpr hempty
      have hle := h.le
      rw [hat.pop_eq hbuffer (by omega)] at hpop
      cases hpop
      have hnext := hat.pop hempty
      have hleft := h.left (n := 1) (by omega)
      exact ⟨lo + 1, hi, hnext.ridx, h.widx, hnext.le, hleft, fun _ => ⟨k, hnext⟩,
        fun hnull => absurd hnull hbuffer⟩
  | clear =>
    obtain ⟨⟨⟨slots, freed⟩, queue⟩, hclear, heq⟩ := Option.map_eq_some_iff.mp hstep
    cases heq
    by_cases hbuffer : s.queue.buffer = 0
    · rw [Queue.clear, if_pos hbuffer] at hclear
      cases hclear
      have hleft := h.left (n := 0) h.le
      exact ⟨lo, hi, h.ridx, h.widx, h.le, hleft, h.buffer, h.null⟩
    · obtain ⟨k, hat⟩ := h.buffer hbuffer
      have hle := h.le
      have hall : lo + s.queue.size.toNat = hi := by
        rw [h.size]
        omega
      obtain ⟨slots', r, hpops, hlen, hempty, -⟩ :=
        popAll_spec hat hbuffer s.mem (Nat.le_of_eq hall)
      rw [Queue.clear, if_neg hbuffer, hpops] at hclear
      cases hclear
      rw [hall] at hempty
      have hleft := h.left (Nat.le_of_eq hall)
      rw [hall, ← hlen] at hleft
      exact ⟨hi, hi, hempty.ridx, hempty.widx, Nat.le_refl hi, hleft, fun hne => absurd rfl hne,
        fun _ => rfl⟩

theorem Tidy.keeps_iff (h : s.Tidy lo hi) (e : Event ty.Value) : Keeps s e ↔ Returns s e := by
  constructor
  · intro hkeeps hthrowing hroom
    cases e with
    | throwingPush bytes =>
      obtain ⟨k, hat⟩ := h.buffer hroom.1
      obtain ⟨pushed, mem, hpush, -⟩ := construct_eq hat hroom s.mem (.thrown bytes)
      have hnext := hat.push (Bool.eq_false_iff.mp hroom.2)
      have hstep : s.step (.throwingPush bytes) =
          some { s with mem, queue := { s.queue with widx := s.queue.widx + 1#64 } } := by
        rw [Account.step, hpush]
        rfl
      have hsize := congrArg BitVec.toNat ((hkeeps _ hstep).2 rfl).size
      rw [hnext.size_toNat, h.size] at hsize
      have hle := h.le
      omega
    | _ => cases hthrowing
  · intro hreturns t hstep
    obtain ⟨lo', hi', ht⟩ := h.step hreturns hstep
    refine ⟨ht.accurate, fun hthrowing => ?_⟩
    cases e with
    | throwingPush bytes =>
      obtain ⟨r, hpush, heq⟩ := Option.map_eq_some_iff.mp hstep
      have hsame := construct_full (hreturns rfl) hpush
      cases hsame
      cases heq
      exact ⟨rfl, rfl, rfl, rfl⟩
    | _ => cases hthrowing

theorem create_tidy {allocator : BitVec 64 → Nat} {capacity : BitVec 64} {q : Queue}
    (h : create ty.sizeof allocator capacity = some q) (mem : Mem) :
    ({ mem, queue := q, live := [] } : Account ty).Tidy 0 0 := by
  obtain ⟨k, hat⟩ := create_at h
  exact ⟨hat.ridx, hat.widx, Nat.le_refl 0, rfl, fun _ => ⟨k, hat⟩, fun _ => rfl⟩

end Account

/-- The index of a slot is taken before the constructor of its object runs. -/
theorem truthful_iff {allocator : BitVec 64 → Nat} {capacity : BitVec 64} {q : Queue}
    (hcreate : create ty.sizeof allocator capacity = some q) (mem : Mem)
    (es : List (Event ty.Value)) :
    Account.Truthful { mem, queue := q, live := [] } es ↔
      Runs.Along Account.step Account.Returns { mem, queue := q, live := [] } es := by
  have hstart := Account.create_tidy hcreate mem
  have hkeep : ∀ (s : Account ty) e t, s.step e = some t → s.Keeps e →
      (∃ lo hi, s.Tidy lo hi) → ∃ lo hi, t.Tidy lo hi := by
    rintro s e t hstep hkeeps ⟨lo, hi, h⟩
    exact h.step ((h.keeps_iff e).mp hkeeps) hstep
  rw [Account.Truthful, and_iff_right hstart.accurate]
  refine Runs.along_iff ?_ hkeep ⟨0, 0, hstart⟩ es
  rintro s e ⟨lo, hi, h⟩
  exact h.keeps_iff e

def noBytes : Account byteType := { mem := fun _ => 0, queue := twoBytes, live := [] }

def throwWhenFull : List (Event UInt8) :=
  [.push 5, .push 6, .throwingPush [], .pop, .clear]

theorem throwWhenFull_truthful : noBytes.Truthful throwWhenFull := by
  have hcreate : create byteType.sizeof (fun _ => 4096) 2 = some twoBytes := by decide
  refine (truthful_iff hcreate _ _).mpr ?_
  refine (Runs.along_cons rfl).mpr ⟨nofun, (Runs.along_cons rfl).mpr ⟨nofun, ?_⟩⟩
  refine (Runs.along_cons rfl).mpr ⟨fun _ => by decide, ?_⟩
  exact (Runs.along_cons rfl).mpr ⟨nofun, (Runs.along_cons rfl).mpr ⟨nofun, trivial⟩⟩

theorem throwingPush_not_truthful :
    ∃ t, noBytes.step (.throwingPush []) = some t ∧ t.queue.size = 1 ∧ t.live = [] ∧
      t.elements = [none] ∧ ¬ noBytes.Truthful [.throwingPush []] := by
  obtain ⟨t, hstep, hsize, hlive, helements⟩ : ∃ t, noBytes.step (.throwingPush []) = some t ∧
      t.queue.size = 1 ∧ t.live = [] ∧ t.elements = [none] := ⟨_, rfl, rfl, rfl, rfl⟩
  refine ⟨t, hstep, hsize, hlive, helements, fun htruthful => ?_⟩
  obtain ⟨-, hkeeps, -⟩ := htruthful
  have haccurate := (hkeeps t hstep).1.size
  rw [hsize, hlive] at haccurate
  cases haccurate

end Flyzero.CircularQueue
