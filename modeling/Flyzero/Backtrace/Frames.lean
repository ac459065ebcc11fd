import Flyzero.Backtrace.Dump

/-! What `backtrace_fill_frame_info` makes of the lookups of its frames. Locals that are not
initialised hold anything. -/
namespace Flyzero.Backtrace

structure DlInfo where
  fname : BitVec 64
  fbase : BitVec 64
  deriving DecidableEq

def FrameInfo.zero : FrameInfo (BitVec 64) := { base := 0, offset := 0, module := 0 }

/-- A round of the loop of `backtrace_fill_frame_info`; a lookup that fails leaves `stale` in
`addr_info`. -/
def fillFrame (lookup : Option DlInfo) (stale : DlInfo) (frame : BitVec 64)
    (info : FrameInfo (BitVec 64)) : FrameInfo (BitVec 64) :=
  let addrInfo := lookup.getD stale
  let info := if lookup.isNone then FrameInfo.zero else info
  let info := { info with base := addrInfo.fbase }
  let info := { info with offset := frame - addrInfo.fbase - 1 }
  { info with module := addrInfo.fname }

def fillFrameInfo (dladdr : Nat → Option DlInfo) (stale : Nat → DlInfo) :
    Nat → List (BitVec 64) → List (FrameInfo (BitVec 64)) → List (FrameInfo (BitVec 64))
  | i, frame :: frames, info :: infos =>
    fillFrame (dladdr i) (stale i) frame info :: fillFrameInfo dladdr stale (i + 1) frames infos
  | _, _, infos => infos

def Tells (lookup : Option DlInfo) (frame : BitVec 64) (info : FrameInfo (BitVec 64)) : Prop :=
  match lookup with
  | none => info = .zero
  | some found =>
    info.base = found.fbase ∧ info.module = found.fname ∧ info.base + info.offset + 1 = frame

/-- The records of all frames are, whatever the memory has held. -/
def FillsRight (dladdr : Nat → Option DlInfo) (frames : List (BitVec 64)) : Prop :=
  ∀ stale infos, infos.length = frames.length →
    (fillFrameInfo dladdr stale 0 frames infos).length = frames.length ∧
    ∀ i frame info, frames[i]? = some frame →
      (fillFrameInfo dladdr stale 0 frames infos)[i]? = some info → Tells (dladdr i) frame info

section
variable {dladdr : Nat → Option DlInfo} {stale : Nat → DlInfo} {frames : List (BitVec 64)}
  {infos : List (FrameInfo (BitVec 64))}

theorem fillFrame_found (found stale : DlInfo) (frame : BitVec 64)
    (info : FrameInfo (BitVec 64)) : Tells (some found) frame
      (fillFrame (some found) stale frame info) := by
  refine ⟨rfl, rfl, ?_⟩
  change found.fbase + (frame - found.fbase - 1) + 1 = frame
  rw [BitVec.add_assoc, BitVec.sub_add_cancel, BitVec.add_comm, BitVec.sub_add_cancel]

theorem fillFrame_failed (stale : DlInfo) (frame : BitVec 64) (info : FrameInfo (BitVec 64)) :
    fillFrame none stale frame info =
      { base := stale.fbase, offset := frame - stale.fbase - 1, module := stale.fname } := rfl

theorem fillFrameInfo_length (i : Nat) (h : infos.length = frames.length) :
    (fillFrameInfo dladdr stale i frames infos).length = frames.length := by
  induction frames generalizing i infos with
  | nil => exact h
  | cons frame frames ih =>
    cases infos with
    | nil => cases h
    | cons info infos =>
      rw [fillFrameInfo, List.length_cons, ih (i + 1) (Nat.succ_inj.mp h), List.length_cons]

theorem fillFrameInfo_getElem? (dladdr : Nat → Option DlInfo) (stale : Nat → DlInfo) (i : Nat)
    (h : infos.length = frames.length) {j : Nat} {frame : BitVec 64} {info : FrameInfo (BitVec 64)}
    (hframe : frames[j]? = some frame) (hinfo : infos[j]? = some info) :
    (fillFrameInfo dladdr stale i frames infos)[j]? =
      some (fillFrame (dladdr (i + j)) (stale (i + j)) frame info) := by
  induction frames generalizing i j infos with
  | nil => cases hframe
  | cons frame' frames ih =>
    cases infos with
    | nil => cases h
    | cons info' infos =>
      rw [fillFrameInfo]
      cases j with
      | zero =>
        cases hframe
        cases hinfo
        rfl
      | succ j =>
        have hnext := ih (i + 1) (Nat.succ_inj.mp h) hframe hinfo
        rw [Nat.add_right_comm, Nat.add_assoc] at hnext
        exact hnext

end

/-- The common code of the round writes the record of a failed lookup as well. -/
theorem fillsRight_iff (dladdr : Nat → Option DlInfo) (frames : List (BitVec 64)) :
    FillsRight dladdr frames ↔ ∀ i < frames.length, (dladdr i).isSome := by
  constructor
  · intro hright i hi
    by_contra hfailed
    have hnone : dladdr i = none := by simpa using hfailed
    let stale : Nat → DlInfo := fun _ => { fname := 0, fbase := 1 }
    have hlen : (List.replicate frames.length FrameInfo.zero).length = frames.length :=
      List.length_replicate
    have hframe : frames[i]? = some frames[i] := List.getElem?_eq_getElem hi
    have hinfo : (List.replicate frames.length FrameInfo.zero)[i]? = some FrameInfo.zero := by
      rw [List.getElem?_replicate, if_pos hi]
    have hround := fillFrameInfo_getElem? dladdr stale 0 hlen hframe hinfo
    rw [Nat.zero_add, hnone, fillFrame_failed] at hround
    have htells := (hright stale _ hlen).2 i _ _ hframe hround
    rw [hnone] at htells
    have hbase : (1 : BitVec 64) = 0 := congrArg FrameInfo.base htells
    exact absurd hbase (by decide)
  · intro hfound stale infos hlen
    refine ⟨fillFrameInfo_length 0 hlen, fun i frame info hframe hinfo => ?_⟩
    obtain ⟨hi, -⟩ := List.getElem?_eq_some_iff.mp hframe
    have hold : infos[i]? = some infos[i] := List.getElem?_eq_getElem (hlen ▸ hi)
    rw [fillFrameInfo_getElem? dladdr stale 0 hlen hframe hold, Nat.zero_add] at hinfo
    obtain ⟨found, hlookup⟩ := Option.isSome_iff_exists.mp (hfound i hi)
    rw [hlookup] at hinfo ⊢
    cases hinfo
    exact fillFrame_found found (stale i) frame infos[i]

theorem secondFrame_stale :
    let found : DlInfo := { fname := 4096, fbase := 8192 }
    let dladdr (i : Nat) : Option DlInfo := if i = 0 then some found else none
    fillFrameInfo dladdr (fun _ => found) 0 [8200, 100] [.zero, .zero] =
        [⟨8192, 7, 4096⟩, ⟨8192, 100 - 8192 - 1, 4096⟩] ∧
      ¬ FillsRight dladdr [8200, 100] := by
  intro found dladdr
  refine ⟨by decide, fun hright => ?_⟩
  have htells := (hright (fun _ => found) [.zero, .zero] rfl).2 1 100 _ rfl rfl
  have hbase := congrArg FrameInfo.base htells
  exact absurd hbase (by decide)

end Flyzero.Backtrace
