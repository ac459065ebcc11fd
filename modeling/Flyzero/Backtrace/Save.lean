import Flyzero.Backtrace.Format
import Flyzero.Lib.BufferedFile

/-! What a saved backtrace has reached when `backtrace_dump_save` returns. -/
namespace Flyzero.Backtrace
open BufferedFile Codec

/-- A stream with a buffer over a descriptor; that `fclose` has failed is not looked at. -/
def buffered (size : Nat) (accepts : Nat → Nat) (opened : Bool) : Stdio File where
  fdopen := if opened then some empty else none
  fwrite := write size accepts
  fclose f := (flush accepts f).1

def encoding (o : Order) (frames : List (FrameInfo CString)) : List UInt8 :=
  (writeBits o (BitVec.ofNat 32 frames.length) :: frames.flatMap (frameItems o)).flatten

/-- Success is returned when the descriptor has accepted everything, and failure otherwise. -/
def Honest (o : Order) (size : Nat) (accepts : Nat → Nat) (opened : Bool)
    (frames : List (FrameInfo CString)) : Prop :=
  let (ret, stream) := dumpSave o (buffered size accepts opened) frames
  ret = if stream.map File.accepted = some (encoding o frames) then 0 else -1

/-- The flushes of full buffers are taken, and the flush of what is left is not. -/
def LostAtClose (o : Order) (size : Nat) (accepts : Nat → Nat)
    (frames : List (FrameInfo CString)) : Prop :=
  let bytes := encoding o frames
  let full := fullFlushes size bytes
  (∀ k < full, size ≤ accepts k) ∧ accepts full < bytes.length - size * full

instance (o : Order) (size : Nat) (accepts : Nat → Nat) (frames : List (FrameInfo CString)) :
    Decidable (LostAtClose o size accepts frames) := inferInstanceAs (Decidable (_ ∧ _))

section
variable {o : Order} {size : Nat} {accepts : Nat → Nat} {frames : List (FrameInfo CString)}

theorem collect_encoding (h : 1 ≤ frames.length) :
    dumpSave o collect frames = (0, some (encoding o frames)) := by
  rw [dumpSave_collect o h, encoding, List.flatten_cons, flatMap_frameItems]

theorem encoding_pos (o : Order) (frames : List (FrameInfo CString)) :
    0 < (encoding o frames).length := by
  rw [encoding, List.flatten_cons, List.length_append, writeBits_length]
  omega

theorem writeItems_buffered (opened : Bool) (f : File) (items : List (List UInt8)) :
    writeItems (buffered size accepts opened) f items = write size accepts f items.flatten := by
  induction items generalizing f with
  | nil => rfl
  | cons item items ih =>
    rw [List.flatten_cons, write_append, ← ih]
    change (if (write size accepts f item).2 then _ else ((write size accepts f item).1, false)) = _
    by_cases hwritten : (write size accepts f item).2 = true
    · rw [if_pos hwritten, if_pos hwritten]
      rfl
    · rw [if_neg hwritten, if_neg hwritten]
      exact Prod.ext rfl (Bool.eq_false_iff.mpr hwritten).symm

theorem dumpSave_buffered (h : 1 ≤ frames.length) :
    dumpSave o (buffered size accepts true) frames =
      (if (write size accepts empty (encoding o frames)).2 then 0 else -1,
        some (flush accepts (write size accepts empty (encoding o frames)).1).1) := by
  have hopen : (buffered size accepts true).fdopen = some empty := rfl
  rw [dumpSave, if_neg (by omega), hopen]
  dsimp only
  rw [writeItems_buffered]
  rfl

theorem accepted_iff (hsize : 0 < size)
    (hwritten : (write size accepts empty (encoding o frames)).2 = true) :
    (flush accepts (write size accepts empty (encoding o frames)).1).1.accepted =
      encoding o frames ↔ ¬ LostAtClose o size accepts frames := by
  have hpos := encoding_pos o frames
  rw [flush_accepted_iff accepts hsize hpos, and_iff_right hwritten, LostAtClose,
    and_iff_right ((write_ok_iff accepts hsize hpos).mp hwritten), Nat.not_lt]

end

/-- The last bytes leave the buffer when the stream is closed. -/
theorem honest_iff (o : Order) {size : Nat} (hsize : 0 < size) (accepts : Nat → Nat)
    (opened : Bool) (frames : List (FrameInfo CString)) :
    Honest o size accepts opened frames ↔
      ¬ (opened = true ∧ frames ≠ [] ∧ LostAtClose o size accepts frames) := by
  have hpos := encoding_pos o frames
  rw [Honest]
  by_cases hframes : frames = []
  · rw [hframes]
    exact iff_of_true rfl fun h => h.2.1 rfl
  have hlen : 1 ≤ frames.length := List.length_pos_iff.mpr hframes
  cases opened with
  | false =>
    have hopen : (buffered size accepts false).fdopen = none := rfl
    rw [dumpSave, if_neg (by omega), hopen]
    exact iff_of_true rfl fun h => Bool.false_ne_true h.1
  | true =>
    rw [dumpSave_buffered hlen, and_iff_right rfl, and_iff_right hframes]
    simp only [Option.map_some, Option.some.injEq]
    by_cases hwritten : (write size accepts empty (encoding o frames)).2 = true
    · rw [if_pos hwritten, ← accepted_iff hsize hwritten]
      by_cases hall : (flush accepts (write size accepts empty (encoding o frames)).1).1.accepted =
          encoding o frames
      · rw [if_pos hall]
        exact iff_of_true rfl hall
      · rw [if_neg hall]
        exact iff_of_false (by decide) hall
    · have haccepted := flush_accepted_iff accepts hsize hpos
      rw [if_neg hwritten, if_neg fun h => hwritten (haccepted.mp h).1]
      exact iff_of_true rfl fun h => hwritten ((write_ok_iff accepts hsize hpos).mpr h.1)

theorem twoFrames_honest :
    Honest .big 16 (fun k => if k = 1 then 0 else 16) true twoFrames := by
  refine (honest_iff .big (by decide) _ true twoFrames).mpr ?_
  rintro ⟨-, -, hlost⟩
  exact absurd hlost (by decide)

theorem twoFrames_lost :
    (dumpSave .big (buffered 4096 (fun _ => 0) true) twoFrames).1 = 0 ∧
    (dumpSave .big (buffered 4096 (fun _ => 0) true) twoFrames).2.map File.accepted = some [] ∧
    ¬ Honest .big 4096 (fun _ => 0) true twoFrames := by
  have hret : (dumpSave .big (buffered 4096 (fun _ => 0) true) twoFrames).1 = 0 := by decide
  have hfile : (dumpSave .big (buffered 4096 (fun _ => 0) true) twoFrames).2.map File.accepted =
      some [] := by decide
  refine ⟨hret, hfile, fun hhonest => ?_⟩
  rw [Honest] at hhonest
  dsimp only at hhonest
  rw [hret, hfile] at hhonest
  revert hhonest
  decide

end Flyzero.Backtrace
