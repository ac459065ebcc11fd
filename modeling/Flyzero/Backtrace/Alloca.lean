import Flyzero.Backtrace.Format
import Mathlib.Algebra.BigOperators.Group.List.Basic
import Mathlib.Algebra.Order.Ring.Nat

/-! `backtrace_dump_load` on a stack that ends, and what it accepts. -/
namespace Flyzero.Backtrace
open Codec

/-- The bytes of stack that are left for `alloca`, and those that it takes when it is asked: no
fewer. -/
structure Stack where
  room : Nat
  takes : Nat → Nat
  le_takes : ∀ n, n ≤ takes n

inductive Fault where
  | short
  | overflow

/-- The bytes that are used in the end. -/
def Stack.alloca (s : Stack) (used size : Nat) : Except Fault Nat :=
  if used + s.takes size ≤ s.room then .ok (used + s.takes size) else .error .overflow

def fread {α : Type} (read : Reader α) (bs : List UInt8) : Except Fault (α × List UInt8) :=
  match read bs with
  | some r => .ok r
  | none => .error .short

abbrev Header := (BitVec 64 × BitVec 64) × BitVec 64

def readHeader (o : Order) : Reader Header :=
  andThen (andThen (readBits o 64) fun _ => readBits o 64) fun _ => readBits o 64

def writeHeader (o : Order) (h : Header) : List UInt8 :=
  writeBits o h.1.1 ++ writeBits o h.1.2 ++ writeBits o h.2

/-- The loop over the frames; the room for a path is taken before the path is read. -/
def loadFrames (s : Stack) (o : Order) :
    Nat → Nat → List UInt8 → Except Fault (List (FrameInfo (List UInt8)))
  | 0, _, _ => .ok []
  | n + 1, used, bs =>
    (fread (readHeader o) bs).bind fun (h, bs) =>
      (s.alloca used h.2.toNat).bind fun used =>
        (fread (readBytes h.2.toNat) bs).bind fun (path, bs) =>
          (loadFrames s o n used bs).map fun frames =>
            { base := h.1.1, offset := h.1.2, module := path } :: frames

inductive Outcome where
  | returned (l : Load)
  /-- The stack has been overrun, which is undefined behaviour. -/
  | crashed

def frameInfoSize : Nat := 24

/-- `dumpLoad` with the calls of `alloca` for the count and for each length as they are stored. -/
def dumpLoadOn (s : Stack) (o : Order) : Option (List UInt8) → Outcome
  | none => .returned { ret := -1, dumped := none, closed := false }
  | some input =>
    let failed : Load := { ret := -1, dumped := none, closed := true }
    match readBits o 32 input with
    | none => .returned failed
    | some (count, rest) =>
      if count.toInt ≤ 0 then .returned failed
      else
        match (s.alloca 0 (count.toNat * frameInfoSize)).bind fun used =>
          loadFrames s o count.toNat used rest with
        | .ok frames => .returned { ret := 0, dumped := some frames, closed := true }
        | .error .short => .returned failed
        | .error .overflow => .crashed

/-- Behind fewer than `n` whole records stands the length of another path that finds no room. -/
def Overruns (s : Stack) (o : Order) (n used : Nat) (bs : List UInt8) : Prop :=
  ∃ (frames : List (FrameInfo (List UInt8))) (h : Header), frames.length < n ∧
    (∀ f ∈ frames, f.Storable) ∧ frames.flatMap (writeFrame o) ++ writeHeader o h <+: bs ∧
    s.room < used + (frames.map fun f => s.takes f.module.length).sum + s.takes h.2.toNat

def Overflows (s : Stack) (o : Order) (input : List UInt8) : Prop :=
  ∃ (count : BitVec 32) (rest : List UInt8), 0 < count.toInt ∧ input = writeBits o count ++ rest ∧
    (s.room < s.takes (count.toNat * frameInfoSize) ∨
      Overruns s o count.toNat (s.takes (count.toNat * frameInfoSize)) rest)

section
variable {s : Stack} {o : Order} {n used : Nat} {bs rest : List UInt8} {h : Header}

theorem readHeader_iff : readHeader o bs = some (h, rest) ↔ bs = writeHeader o h ++ rest := by
  have hword : Reads (readBits o 64) (writeBits o) fun _ => True :=
    readBits_reads o (by decide) rfl
  have hheader := (hword.andThen fun _ => hword).andThen fun _ => hword
  simpa [readHeader, writeHeader] using hheader bs h rest

theorem readFrame_eq (bs : List UInt8) : readFrame o bs =
    (readHeader o bs).bind fun r => (readBytes r.1.2.toNat r.2).map fun p =>
      ({ base := r.1.1.1, offset := r.1.1.2, module := p.1 }, p.2) := by
  simp only [readFrame, readHeader, andThen, Option.bind_assoc, Option.map_bind, Option.bind_map,
    Function.comp_def, Option.map_map]

theorem writeFrame_eq (f : FrameInfo (List UInt8)) : writeFrame o f =
    writeHeader o ((f.base, f.offset), BitVec.ofNat 64 f.module.length) ++ f.module := by
  simp [writeFrame, writeHeader]

theorem readHeader_cons (f : FrameInfo (List UInt8)) (frames : List (FrameInfo (List UInt8)))
    (tail : List UInt8) : readHeader o ((f :: frames).flatMap (writeFrame o) ++ tail) =
      some (((f.base, f.offset), BitVec.ofNat 64 f.module.length),
        f.module ++ (frames.flatMap (writeFrame o) ++ tail)) := by
  rw [readHeader_iff, List.flatMap_cons, writeFrame_eq]
  simp only [List.append_assoc]

theorem not_overruns_short (hread : readHeader o bs = none) : ¬ Overruns s o n used bs := by
  rintro ⟨frames, h, -, -, ⟨rest, rfl⟩, -⟩
  cases frames with
  | nil => cases hread.symm.trans (readHeader_iff.mpr (List.append_assoc ..))
  | cons f frames =>
    rw [List.append_assoc, readHeader_cons] at hread
    cases hread

theorem overruns_full (hread : readHeader o bs = some (h, rest))
    (hfull : s.room < used + s.takes h.2.toNat) : Overruns s o (n + 1) used bs := by
  refine ⟨[], h, Nat.succ_pos n, nofun, ⟨rest, ?_⟩, hfull⟩
  rw [readHeader_iff.mp hread]
  rfl

theorem overruns_cons (hread : readHeader o bs = some (h, rest))
    (hroom : used + s.takes h.2.toNat ≤ s.room) : Overruns s o (n + 1) used bs ↔
      ∃ path rest', readBytes h.2.toNat rest = some (path, rest') ∧
        Overruns s o n (used + s.takes h.2.toNat) rest' := by
  have hpath := readBytes_reads h.2.toNat
  constructor
  · rintro ⟨frames, h', hlen, hall, ⟨rest', hbs⟩, hfull⟩
    cases frames with
    | nil =>
      have hsame : readHeader o bs = some (h', rest') := readHeader_iff.mpr (by simp [← hbs])
      cases hread.symm.trans hsame
      simp at hfull
      omega
    | cons f frames =>
      obtain ⟨hf, hall⟩ := List.forall_mem_cons.mp hall
      rw [← hbs, List.append_assoc, readHeader_cons] at hread
      cases hread
      have hlength : (BitVec.ofNat 64 f.module.length).toNat = f.module.length := by
        rw [BitVec.toNat_ofNat, Nat.mod_eq_of_lt hf.2]
      dsimp only at hpath ⊢
      rw [hlength] at hpath ⊢
      refine ⟨_, _, hpath.read_write ⟨hf.1, rfl⟩ _, frames, h', by simpa using hlen, hall,
        ⟨rest', by simp⟩, ?_⟩
      simp only [List.map_cons, List.sum_cons] at hfull
      omega
  · rintro ⟨path, rest', hread', frames, h', hlen, hall, ⟨rest'', rfl⟩, hfull⟩
    obtain ⟨⟨hpos, hlength⟩, hrest⟩ := (hpath _ _ _).mp hread'
    have hback : BitVec.ofNat 64 path.length = h.2 := by
      rw [hlength, BitVec.ofNat_toNat, BitVec.setWidth_eq]
    refine ⟨⟨h.1.1, h.1.2, path⟩ :: frames, h', by simpa using hlen,
      List.forall_mem_cons.mpr ⟨⟨hlength ▸ hpos, hlength ▸ h.2.isLt⟩, hall⟩, ⟨rest'', ?_⟩, ?_⟩
    · rw [readHeader_iff.mp hread, hrest, List.flatMap_cons, writeFrame_eq]
      dsimp only
      rw [hback]
      simp only [id, List.append_assoc]
    · simp only [List.map_cons, List.sum_cons, hlength]
      omega

/-- The loop reads what it would read with stack without end, until there is none. -/
theorem loadFrames_spec (n used : Nat) (bs : List UInt8) :
    (Overruns s o n used bs ∧ loadFrames s o n used bs = .error .overflow) ∨
      ¬ Overruns s o n used bs ∧ loadFrames s o n used bs =
        match readList (readFrame o) n bs with
        | some (frames, _) => .ok frames
        | none => .error .short := by
  induction n generalizing used bs with
  | zero =>
    refine .inr ⟨?_, rfl⟩
    rintro ⟨frames, h, hlen, -⟩
    exact absurd hlen (Nat.not_lt_zero _)
  | succ n ih =>
    rw [loadFrames, readList, readFrame_eq]
    cases hread : readHeader o bs with
    | none =>
      refine .inr ⟨not_overruns_short hread, ?_⟩
      simp [fread, hread, Except.bind]
    | some r =>
      obtain ⟨h, rest⟩ := r
      by_cases hroom : used + s.takes h.2.toNat ≤ s.room
      · rw [overruns_cons hread hroom]
        cases hpath : readBytes h.2.toNat rest with
        | none => simp [fread, hread, hpath, Except.bind, Stack.alloca, hroom]
        | some p =>
          obtain ⟨path, rest'⟩ := p
          obtain ⟨hover, heq⟩ | ⟨hover, heq⟩ := ih (used + s.takes h.2.toNat) rest'
          · simp [fread, hread, hpath, Except.bind, Stack.alloca, hroom, hover, heq, Except.map]
          · refine .inr ⟨by simp [hover], ?_⟩
            cases hlist : readList (readFrame o) n rest' <;>
              simp [fread, hread, hpath, Except.bind, Stack.alloca, hroom, heq, hlist, Except.map]
      · refine .inl ⟨overruns_full hread (Nat.not_le.mp hroom), ?_⟩
        simp [fread, hread, Except.bind, Stack.alloca, hroom]

theorem dumpLoadOn_spec (s : Stack) (o : Order) (input : List UInt8) :
    (Overflows s o input ∧ dumpLoadOn s o (some input) = .crashed) ∨
      ¬ Overflows s o input ∧
        dumpLoadOn s o (some input) = .returned (dumpLoad o (some input)) := by
  have hcount : Reads (readBits o 32) (writeBits o) fun _ => True :=
    readBits_reads o (by decide) rfl
  rw [dumpLoadOn, dumpLoad]
  cases hread : readBits o 32 input with
  | none =>
    refine .inr ⟨?_, rfl⟩
    rintro ⟨count, rest, -, rfl, -⟩
    rw [hcount.read_write trivial] at hread
    cases hread
  | some r =>
    obtain ⟨count, rest⟩ := r
    obtain ⟨-, rfl⟩ := (hcount _ _ _).mp hread
    have hoverflows : Overflows s o (writeBits o count ++ rest) ↔ 0 < count.toInt ∧
        (s.room < s.takes (count.toNat * frameInfoSize) ∨
          Overruns s o count.toNat (s.takes (count.toNat * frameInfoSize)) rest) := by
      constructor
      · rintro ⟨count', rest', hpos, hinput, hfull⟩
        rw [hinput, hcount.read_write trivial] at hread
        cases hread
        exact ⟨hpos, hfull⟩
      · rintro ⟨hpos, hfull⟩
        exact ⟨count, rest, hpos, rfl, hfull⟩
    rw [hoverflows]
    dsimp only
    by_cases hpos : count.toInt ≤ 0
    · rw [if_pos hpos, if_pos hpos]
      exact .inr ⟨fun h => absurd h.1 (by omega), rfl⟩
    · rw [if_neg hpos, if_neg hpos]
      by_cases hroom : s.takes (count.toNat * frameInfoSize) ≤ s.room
      · have halloca : s.alloca 0 (count.toNat * frameInfoSize) =
            .ok (s.takes (count.toNat * frameInfoSize)) := by
          rw [Stack.alloca, Nat.zero_add, if_pos hroom]
        rw [halloca, Except.bind]
        obtain ⟨hover, heq⟩ | ⟨hover, heq⟩ := loadFrames_spec count.toNat
          (s.takes (count.toNat * frameInfoSize)) rest
        · rw [heq]
          exact .inl ⟨⟨by omega, .inr hover⟩, rfl⟩
        · refine .inr ⟨?_, ?_⟩
          · rintro ⟨-, hfull | hfull⟩
            · omega
            · exact hover hfull
          · rw [heq]
            cases hlist : readList (readFrame o) count.toNat rest <;> rfl
      · have halloca : s.alloca 0 (count.toNat * frameInfoSize) = .error .overflow := by
          rw [Stack.alloca, Nat.zero_add, if_neg hroom]
        rw [halloca]
        exact .inl ⟨⟨by omega, .inl (Nat.not_le.mp hroom)⟩, rfl⟩

end

def Outcome.dumped : Outcome → Option (List (FrameInfo (List UInt8)))
  | .returned l => l.dumped
  | .crashed => none

def AcceptsFormat (s : Stack) (o : Order) (input : List UInt8) : Prop :=
  ((dumpLoadOn s o (some input)).dumped.isSome ↔ Encoded o input) ∧
    (¬ Encoded o input → ∃ l, dumpLoadOn s o (some input) = .returned l ∧ l.ret = -1)

/-- Neither the number of records nor their terminators are checked, nor what they ask for. -/
theorem accepts_iff (s : Stack) (o : Order) (input : List UInt8) :
    AcceptsFormat s o input ↔ ¬ Overflows s o input ∧ ∀ frames, Stores o frames input →
      frames.length ≤ maxDepth ∧ ∀ f ∈ frames, OneNulLast f.module := by
  obtain ⟨hover, hcrashed⟩ | ⟨hover, hreturned⟩ := dumpLoadOn_spec s o input
  · rw [AcceptsFormat, hcrashed]
    refine iff_of_false ?_ fun h => h.1 hover
    rintro ⟨hiff, hrejects⟩
    have hnot : ¬ Encoded o input := fun h => absurd (hiff.mpr h) Bool.false_ne_true
    obtain ⟨l, hl, -⟩ := hrejects hnot
    cases hl
  · rw [AcceptsFormat, hreturned, and_iff_right hover]
    change ((dumpLoad o (some input)).dumped.isSome ↔ _) ∧ _ ↔ _
    constructor
    · rintro ⟨hiff, -⟩ frames h
      have hdumped := dumpLoad_dumped.mpr h
      obtain ⟨frames', h', hall⟩ := encoded_iff.mp (hiff.mp (by rw [hdumped]; rfl))
      rwa [h.unique h']
    · intro hall
      cases hdumped : (dumpLoad o (some input)).dumped with
      | none =>
        have hnot : ¬ Encoded o input := by
          intro h
          obtain ⟨frames, hframes, -⟩ := encoded_iff.mp h
          rw [← dumpLoad_dumped, hdumped] at hframes
          cases hframes
        exact ⟨iff_of_false Bool.false_ne_true hnot, fun _ => ⟨_, rfl, dumpLoad_failed hdumped⟩⟩
      | some frames =>
        have h := dumpLoad_dumped.mp hdumped
        have hencoded := encoded_iff.mpr ⟨frames, h, hall frames h⟩
        exact ⟨iff_of_true rfl hencoded, fun hnot => absurd hencoded hnot⟩

def commonStack : Stack := { room := 0x800000, takes := id, le_takes := le_refl }

def unterminated : List UInt8 :=
  [1, 0, 0, 0] ++ List.replicate 16 0 ++ [1, 0, 0, 0, 0, 0, 0, 0] ++ [65]

def greatestCount : List UInt8 := [255, 255, 255, 127]

theorem unterminated_dumped :
    ((dumpLoadOn commonStack .little (some unterminated)).dumped = some [⟨0, 0, [65]⟩] ∧
      ¬ AcceptsFormat commonStack .little unterminated) ∧
    dumpLoadOn commonStack .little (some greatestCount) = .crashed ∧
      ¬ AcceptsFormat commonStack .little greatestCount := by
  have hdumped : (dumpLoad .little (some unterminated)).dumped = some [⟨0, 0, [65]⟩] := by decide
  have hreturned : (dumpLoadOn commonStack .little (some unterminated)).dumped =
      some [⟨0, 0, [65]⟩] := by decide
  have hcrashed : dumpLoadOn commonStack .little (some greatestCount) = .crashed := rfl
  refine ⟨⟨hreturned, fun h => ?_⟩, hcrashed, fun h => ?_⟩
  · obtain ⟨frames, hstored, -, hall⟩ := encoded_iff.mp (h.1.mp (by rw [hreturned]; rfl))
    obtain rfl := hstored.unique (dumpLoad_dumped.mp hdumped)
    obtain ⟨bytes, -, hpath⟩ := hall _ (List.mem_singleton_self _)
    have hlast := congrArg List.getLast? hpath
    simp at hlast
  · have hnot : ¬ Encoded .little greatestCount := fun hencoded => by
      have hsome := h.1.mpr hencoded
      rw [hcrashed] at hsome
      cases hsome
    obtain ⟨l, hl, -⟩ := h.2 hnot
    rw [hcrashed] at hl
    cases hl

end Flyzero.Backtrace
