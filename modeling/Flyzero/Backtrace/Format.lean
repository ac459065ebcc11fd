import Flyzero.Backtrace.Dump
import Mathlib.Data.Set.List

/-! What `backtrace_dump_load` accepts, against what `backtrace_dump_save` writes. -/
namespace Flyzero.Backtrace
open Codec

def collect : Stdio (List UInt8) where
  fdopen := some []
  fwrite s item := (s ++ item, true)
  fclose s := s

/-- The input begins with a positive count and as many whole records of these frames. -/
def Stores (o : Order) (frames : List (FrameInfo (List UInt8))) (input : List UInt8) : Prop :=
  ∃ count : BitVec 32, 0 < count.toInt ∧ frames.length = count.toNat ∧
    (∀ f ∈ frames, f.Storable) ∧ writeBits o count ++ frames.flatMap (writeFrame o) <+: input

section
variable {o : Order} {input : List UInt8} {frames : List (FrameInfo (List UInt8))}

theorem writeItems_collect (s : List UInt8) (items : List (List UInt8)) :
    writeItems collect s items = (s ++ items.flatten, true) := by
  induction items generalizing s with
  | nil => rw [writeItems, List.flatten_nil, List.append_nil]
  | cons item items ih =>
    rw [List.flatten_cons, ← List.append_assoc, ← ih]
    rfl

theorem frameItems_flatten (o : Order) (f : FrameInfo CString) :
    (frameItems o f).flatten = writeFrame o f.stored := by
  simp [frameItems, writeFrame, FrameInfo.stored, CString.terminated]

theorem flatMap_frameItems (o : Order) (frames : List (FrameInfo CString)) :
    (frames.flatMap (frameItems o)).flatten =
      (frames.map FrameInfo.stored).flatMap (writeFrame o) := by
  induction frames with
  | nil => rfl
  | cons f frames ih =>
    rw [List.flatMap_cons, List.flatten_append, frameItems_flatten, ih, List.map_cons,
      List.flatMap_cons]

theorem dumpSave_collect (o : Order) {frames : List (FrameInfo CString)} (h : 1 ≤ frames.length) :
    dumpSave o collect frames = (0, some (writeBits o (BitVec.ofNat 32 frames.length) ++
      (frames.map FrameInfo.stored).flatMap (writeFrame o))) := by
  have hopen : collect.fdopen = some [] := rfl
  rw [dumpSave, if_neg (by omega), hopen]
  dsimp only
  rw [writeItems_collect, List.flatten_cons, flatMap_frameItems]
  rfl

theorem CString.storable (f : FrameInfo CString) : f.stored.Storable := by
  have hfits := f.module.fits
  simp only [FrameInfo.Storable, FrameInfo.stored, CString.terminated, List.length_append,
    List.length_singleton]
  omega

theorem Stores.dumpLoad (h : Stores o frames input) :
    dumpLoad o (some input) = { ret := 0, dumped := some frames, closed := true } := by
  have hcount : Reads (readBits o 32) (writeBits o) fun _ => True :=
    readBits_reads o (by decide) rfl
  have hframes (n : Nat) := (readFrame_reads o).list n
  obtain ⟨count, hpos, hlen, hall, rest, rfl⟩ := h
  rw [Backtrace.dumpLoad, List.append_assoc, hcount.read_write trivial]
  dsimp only
  rw [if_neg (by omega), (hframes _).read_write ⟨hlen, hall⟩]

theorem dumpLoad_dumped :
    (dumpLoad o (some input)).dumped = some frames ↔ Stores o frames input := by
  have hcount : Reads (readBits o 32) (writeBits o) fun _ => True :=
    readBits_reads o (by decide) rfl
  have hframes (n : Nat) := (readFrame_reads o).list n
  constructor
  · intro h
    rw [dumpLoad] at h
    cases hread : readBits o 32 input with
    | none => simp [hread] at h
    | some r =>
      obtain ⟨count, rest⟩ := r
      obtain ⟨-, rfl⟩ := (hcount _ _ _).mp hread
      rw [hread] at h
      dsimp only at h
      split at h
      · cases h
      · cases hlist : readList (readFrame o) count.toNat rest with
        | none => simp [hlist] at h
        | some r =>
          obtain ⟨frames', rest'⟩ := r
          obtain ⟨⟨hlen, hall⟩, rfl⟩ := (hframes _ _ _ _).mp hlist
          rw [hlist] at h
          cases h
          refine ⟨count, by omega, hlen, hall, rest', ?_⟩
          rw [List.append_assoc]
  · exact fun h => congrArg Load.dumped h.dumpLoad

theorem dumpLoad_rejects (h : (dumpLoad o (some input)).dumped = none) :
    dumpLoad o (some input) = { ret := -1, dumped := none, closed := true } := by
  rw [dumpLoad] at h ⊢
  split
  · rfl
  · rename_i count rest hread
    split
    · rfl
    · rename_i hpos
      split
      · rfl
      · rename_i frames rest' hlist
        rw [hread] at h
        dsimp only at h
        rw [if_neg hpos, hlist] at h
        cases h

theorem dumpLoad_failed (h : (dumpLoad o (some input)).dumped = none) :
    (dumpLoad o (some input)).ret = -1 := by
  rw [dumpLoad_rejects h]

theorem Stores.of_prefix {input' : List UInt8} (h : Stores o frames input)
    (hpre : input <+: input') : Stores o frames input' := by
  obtain ⟨count, hpos, hlen, hall, hbytes⟩ := h
  exact ⟨count, hpos, hlen, hall, hbytes.trans hpre⟩

theorem Stores.unique {frames' : List (FrameInfo (List UInt8))} (h : Stores o frames input)
    (h' : Stores o frames' input) : frames = frames' := by
  rw [← dumpLoad_dumped] at h h'
  exact Option.some.inj (h.symm.trans h')

theorem saved_stores {frames : List (FrameInfo CString)} (hpos : 1 ≤ frames.length)
    (hmax : frames.length ≤ maxDepth) {bytes : List UInt8}
    (hsave : dumpSave o collect frames = (0, some bytes)) (rest : List UInt8) :
    Stores o (frames.map FrameInfo.stored) (bytes ++ rest) := by
  have hbytes := hsave.symm.trans (dumpSave_collect o hpos)
  cases hbytes
  unfold maxDepth at hmax
  have hcount : (BitVec.ofNat 32 frames.length).toNat = frames.length := by
    rw [BitVec.toNat_ofNat]
    omega
  refine ⟨BitVec.ofNat 32 frames.length, ?_, ?_, ?_, rest, rfl⟩
  · rw [BitVec.toInt_eq_toNat_cond, hcount]
    omega
  · rw [List.length_map, hcount]
  · intro f hf
    obtain ⟨g, -, rfl⟩ := List.mem_map.mp hf
    exact CString.storable g

theorem Stores.saved_prefix {frames : List (FrameInfo CString)} {bytes : List UInt8}
    (hpos : 1 ≤ frames.length) (hsave : dumpSave o collect frames = (0, some bytes))
    (h : Stores o (frames.map FrameInfo.stored) input) : bytes <+: input := by
  have hbytes := hsave.symm.trans (dumpSave_collect o hpos)
  cases hbytes
  obtain ⟨count, -, hlen, -, hpre⟩ := h
  have hcount : BitVec.ofNat 32 frames.length = count := by
    rw [← List.length_map FrameInfo.stored, hlen, BitVec.ofNat_toNat, BitVec.setWidth_eq]
  rwa [hcount]

end

theorem load_save (o : Order) {frames : List (FrameInfo CString)} (hpos : 1 ≤ frames.length)
    (hmax : frames.length ≤ maxDepth) :
    ∃ bytes, dumpSave o collect frames = (0, some bytes) ∧ ∀ rest,
      dumpLoad o (some (bytes ++ rest)) =
        { ret := 0, dumped := some (frames.map FrameInfo.stored), closed := true } := by
  have hsave := dumpSave_collect o hpos
  exact ⟨_, hsave, fun rest => (saved_stores hpos hmax hsave rest).dumpLoad⟩

def twoFrames : List (FrameInfo CString) :=
  let module : CString := { bytes := [47, 97], noNul := by decide, fits := by decide }
  [⟨64, 1, module⟩, ⟨64, 2, module⟩]

theorem twoFrames_load : ∃ bytes, dumpSave .big collect twoFrames = (0, some bytes) ∧
    dumpLoad .big (some (bytes ++ [1, 2, 3])) =
      { ret := 0, dumped := some [⟨64, 1, [47, 97, 0]⟩, ⟨64, 2, [47, 97, 0]⟩], closed := true } := by
  have hpos : 1 ≤ twoFrames.length := by decide
  have hmax : twoFrames.length ≤ maxDepth := by decide
  obtain ⟨bytes, hsave, hload⟩ := load_save .big hpos hmax
  exact ⟨bytes, hsave, hload [1, 2, 3]⟩

/-- The saved bytes are the least input that stores their records, so no part of them stores any. -/
theorem truncated_rejected (o : Order) {frames : List (FrameInfo CString)}
    (hpos : 1 ≤ frames.length) (hmax : frames.length ≤ maxDepth) :
    ∃ bytes, dumpSave o collect frames = (0, some bytes) ∧
      ∀ cut, cut <+: bytes → cut ≠ bytes →
        dumpLoad o (some cut) = { ret := -1, dumped := none, closed := true } := by
  have hsave := dumpSave_collect o hpos
  refine ⟨_, hsave, fun cut hcut hne => dumpLoad_rejects ?_⟩
  cases hdumped : (dumpLoad o (some cut)).dumped with
  | none => rfl
  | some frames' =>
    have hstored := dumpLoad_dumped.mp hdumped
    have hwhole := saved_stores hpos hmax hsave []
    rw [List.append_nil] at hwhole
    have hsame := (hstored.of_prefix hcut).unique hwhole
    rw [hsame] at hstored
    have hall := hstored.saved_prefix hpos hsave
    exact absurd (hcut.eq_of_length_le hall.length_le) hne

theorem twoFrames_truncated : ∃ bytes, dumpSave .big collect twoFrames = (0, some bytes) ∧
    dumpLoad .big (some (bytes.take 30)) = { ret := -1, dumped := none, closed := true } := by
  have hpos : 1 ≤ twoFrames.length := by decide
  have hmax : twoFrames.length ≤ maxDepth := by decide
  obtain ⟨bytes, hsave, hcut⟩ := truncated_rejected .big hpos hmax
  have hlen : bytes.length = 58 := by
    have hbytes := hsave.symm.trans (dumpSave_collect .big hpos)
    cases hbytes
    rfl
  refine ⟨bytes, hsave, hcut _ (List.take_prefix 30 bytes) fun heq => ?_⟩
  have hshort := congrArg List.length heq
  rw [List.length_take, hlen] at hshort
  cases hshort

/-- The input begins with what `backtrace_dump_save` can write. -/
def Encoded (o : Order) (input : List UInt8) : Prop :=
  ∃ frames : List (FrameInfo CString), 1 ≤ frames.length ∧ frames.length ≤ maxDepth ∧
    ∃ bytes, dumpSave o collect frames = (0, some bytes) ∧ bytes <+: input

def OneNulLast (path : List UInt8) : Prop := ∃ bytes, 0 ∉ bytes ∧ path = bytes ++ [0]

theorem exists_stored {frames : List (FrameInfo (List UInt8))} (h : ∀ f ∈ frames, f.Storable)
    (hnul : ∀ f ∈ frames, OneNulLast f.module) :
    ∃ gs : List (FrameInfo CString), gs.map FrameInfo.stored = frames := by
  have hrange : frames ∈ Set.range (List.map FrameInfo.stored) := by
    rw [Set.range_list_map]
    intro f hf
    obtain ⟨bytes, hbytes, hpath⟩ := hnul f hf
    have hlt := (h f hf).2
    rw [hpath, List.length_append, List.length_singleton] at hlt
    refine ⟨⟨f.base, f.offset, ⟨bytes, hbytes, hlt⟩⟩, ?_⟩
    rw [FrameInfo.stored, CString.terminated, ← hpath]
  exact hrange

theorem encoded_iff {o : Order} {input : List UInt8} : Encoded o input ↔
    ∃ frames, Stores o frames input ∧
      frames.length ≤ maxDepth ∧ ∀ f ∈ frames, OneNulLast f.module := by
  constructor
  · rintro ⟨gs, hpos, hmax, bytes, hsave, rest, rfl⟩
    refine ⟨_, saved_stores hpos hmax hsave rest, by rwa [List.length_map], fun f hf => ?_⟩
    obtain ⟨g, -, rfl⟩ := List.mem_map.mp hf
    exact ⟨g.module.bytes, g.module.noNul, rfl⟩
  · rintro ⟨frames, ⟨count, hpos, hlen, hok, rest, hinput⟩, hmax, hnul⟩
    obtain ⟨gs, rfl⟩ := exists_stored hok hnul
    rw [List.length_map] at hlen hmax
    have hgs : 1 ≤ gs.length := by
      rw [BitVec.toInt_eq_toNat_cond] at hpos
      omega
    have hcount : BitVec.ofNat 32 gs.length = count := by
      rw [hlen, BitVec.ofNat_toNat, BitVec.setWidth_eq]
    refine ⟨gs, hgs, hmax, _, dumpSave_collect o hgs, rest, ?_⟩
    rw [hcount]
    exact hinput

end Flyzero.Backtrace
