import Flyzero.Backtrace.Format
import Flyzero.Backtrace.Frames
import Flyzero.Backtrace.Report
import Flyzero.Backtrace.Save

/-! A backtrace that is saved, loaded and reported, beside one that is reported at once. -/
namespace Flyzero.Backtrace
open BufferedFile

/-- libbfd opens the module at the path that a pointer leads to. -/
def Libbfd.within (lib : Libbfd) (openPath : List UInt8 → Option (BitVec 64))
    (memory : BitVec 64 → List UInt8) : Libbfd :=
  { lib with openr := fun p => openPath (memory p) }

/-- What a call finds on its stack, which nobody has written: `addr_info` and `addrinfo` at the
start of their rounds, and the records. -/
structure Garbage where
  dlInfo : Nat → DlInfo
  addrInfo : Nat → AddrInfo
  infos : List (FrameInfo (BitVec 64))

/-- The program that is traced: the frames of its stack, what `dladdr` says of them, and the paths
in its memory. -/
structure Program where
  frames : List (BitVec 64)
  dladdr : Nat → Option DlInfo
  memory : BitVec 64 → CString

namespace Program

def infos (p : Program) (g : Garbage) : List (FrameInfo (BitVec 64)) :=
  fillFrameInfo p.dladdr g.dlInfo 0 p.frames g.infos

def named (p : Program) (info : FrameInfo (BitVec 64)) : FrameInfo CString :=
  { info with module := p.memory info.module }

def library (p : Program) (lib : Nat → Libbfd) (openPath : List UInt8 → Option (BitVec 64))
    (i : Nat) : Libbfd :=
  (lib i).within openPath fun ptr => (p.memory ptr).bytes

/-- `backtrace_dump`, with what libbfd answers for each frame. -/
def dump (p : Program) (lib : Nat → Libbfd) (openPath : List UInt8 → Option (BitVec 64))
    (g : Garbage) : Int × List Event :=
  if p.frames.length = 0 then (-1, [])
  else
    (0, dumpFrames (p.library lib openPath) g.addrInfo 0 (p.infos g))

def saved (p : Program) (g : Garbage) : List (FrameInfo CString) := (p.infos g).map p.named

def save {σ : Type*} (p : Program) (o : Codec.Order) (io : Stdio σ) (g : Garbage) :
    Int × Option σ :=
  dumpSave o io (p.saved g)

end Program

/-- `module_` points to what `alloca` has returned for frame `i`. -/
def placed (alloca : Nat → BitVec 64) (frames : List (FrameInfo (List UInt8))) :
    List (FrameInfo (BitVec 64)) :=
  frames.mapIdx fun i frame => { frame with module := alloca i }

def cString (bytes : List UInt8) : List UInt8 := bytes.takeWhile (· ≠ 0)

/-- The whole of `backtrace_dump_load`. -/
def load (o : Codec.Order) (lib : Nat → Libbfd) (openPath : List UInt8 → Option (BitVec 64))
    (alloca : Nat → BitVec 64) (memory : BitVec 64 → List UInt8) (g : Garbage)
    (input : List UInt8) : Int × List Event :=
  let l := dumpLoad o (some input)
  let lib i := (lib i).within openPath memory
  (l.ret, l.dumped.elim [] fun frames => dumpFrames lib g.addrInfo 0 (placed alloca frames))

def Loaded (o : Codec.Order) (alloca : Nat → BitVec 64) (memory : BitVec 64 → List UInt8)
    (input : List UInt8) : Prop :=
  ∀ frames i frame, (dumpLoad o (some input)).dumped = some frames → frames[i]? = some frame →
    memory (alloca i) = cString frame.module

section
variable {p : Program} {g : Garbage} {lib lib' : Nat → Libbfd}
  {openPath : List UInt8 → Option (BitVec 64)}

theorem results_within {lib : Libbfd} {memory memory' : BitVec 64 → List UInt8}
    {frame frame' : FrameInfo (BitVec 64)} (hpath : memory frame.module = memory' frame'.module)
    (hoffset : frame.offset = frame'.offset) :
    (lib.within openPath memory).results frame = (lib.within openPath memory').results frame' := by
  unfold Libbfd.results Libbfd.symbols Libbfd.within
  dsimp only
  rw [hpath, hoffset]

theorem reports_frames {stale : Nat → AddrInfo} {i : Nat}
    {frames frames' : List (FrameInfo (BitVec 64))} (hlen : frames.length = frames'.length)
    (h : ∀ j frame frame', frames[j]? = some frame → frames'[j]? = some frame' →
      frame.base = frame'.base ∧
        (lib (i + j)).results frame = (lib' (i + j)).results frame') :
    reports lib stale i frames = reports lib' stale i frames' := by
  induction frames generalizing i frames' with
  | nil =>
    cases frames' with
    | nil => rfl
    | cons frame' frames' => cases hlen
  | cons frame frames ih =>
    cases frames' with
    | nil => cases hlen
    | cons frame' frames' =>
      obtain ⟨hbase, hresults⟩ := h 0 frame frame' rfl rfl
      rw [Nat.add_zero] at hresults
      rw [reports_cons, reports_cons, dumpFrame_reports, dumpFrame_reports, hbase, hresults]
      rw [ih (Nat.succ_inj.mp hlen)]
      intro j frame₁ frame₂ h₁ h₂
      have hnext := h (j + 1) frame₁ frame₂ h₁ h₂
      rwa [Nat.add_right_comm, Nat.add_assoc]

theorem cString_terminated (s : CString) : cString s.terminated = s.bytes := by
  have hall : ∀ b ∈ s.bytes, decide (b ≠ 0) = true := by
    intro b hb
    simp only [ne_eq, decide_not, Bool.not_eq_true', decide_eq_false_iff_not]
    intro hzero
    exact s.noNul (hzero ▸ hb)
  rw [cString, CString.terminated, List.takeWhile_append_of_pos hall]
  simp

def DlInfo.record (found : DlInfo) (frame : BitVec 64) : FrameInfo (BitVec 64) :=
  { base := found.fbase, offset := frame - found.fbase - 1, module := found.fname }

def Program.Found (p : Program) : Prop := ∀ i < p.frames.length, (p.dladdr i).isSome

def Garbage.Fits (g : Garbage) (p : Program) : Prop := g.infos.length = p.frames.length

theorem infos_getElem? (hg : g.Fits p) {i : Nat} {frame : BitVec 64} {found : DlInfo}
    (hframe : p.frames[i]? = some frame) (hfound : p.dladdr i = some found) :
    (p.infos g)[i]? = some (found.record frame) := by
  obtain ⟨hi, -⟩ := List.getElem?_eq_some_iff.mp hframe
  have hi' : i < g.infos.length := hg.symm ▸ hi
  have hinfo : g.infos[i]? = some g.infos[i] := List.getElem?_eq_getElem hi'
  rw [Program.infos, fillFrameInfo_getElem? _ _ 0 hg hframe hinfo, Nat.zero_add, hfound]
  rfl

theorem infos_length (hg : g.Fits p) : (p.infos g).length = p.frames.length :=
  fillFrameInfo_length 0 hg

theorem infos_congr {g' : Garbage} (hp : p.Found) (hg : g.Fits p) (hg' : g'.Fits p) :
    p.infos g = p.infos g' := by
  refine List.ext_getElem? fun i => ?_
  by_cases hi : i < p.frames.length
  · obtain ⟨found, hfound⟩ := Option.isSome_iff_exists.mp (hp i hi)
    have hframe := List.getElem?_eq_getElem hi
    rw [infos_getElem? hg hframe hfound, infos_getElem? hg' hframe hfound]
  · have hend (g : Garbage) (hg : g.Fits p) : (p.infos g)[i]? = none :=
      List.getElem?_eq_none (by rw [infos_length hg]; omega)
    rw [hend g hg, hend g' hg']

variable {o : Codec.Order} {size : Nat} {accepts : Nat → Nat} {f : File}

theorem save_complete (hsize : 0 < size) (hlost : ¬ LostAtClose o size accepts (p.saved g))
    (hsave : p.save o (buffered size accepts true) g = (0, some f)) :
    f.accepted = encoding o (p.saved g) := by
  have hdump : dumpSave o (buffered size accepts true) (p.saved g) = (0, some f) := hsave
  have hlen : 1 ≤ (p.saved g).length := by
    by_contra hnone
    rw [dumpSave, if_pos (by omega)] at hdump
    cases hdump
  rw [dumpSave_buffered hlen] at hdump
  by_cases hwritten : (write size accepts empty (encoding o (p.saved g))).2 = true
  · rw [if_pos hwritten] at hdump
    cases hdump
    exact (accepted_iff hsize hwritten).mpr hlost
  · rw [if_neg hwritten] at hdump
    cases hdump

theorem load_file (hg : g.Fits p) (hpos : 1 ≤ p.frames.length)
    (hmax : p.frames.length ≤ maxDepth) (hfile : f.accepted = encoding o (p.saved g))
    (rest : List UInt8) : dumpLoad o (some (f.accepted ++ rest)) =
      { ret := 0, dumped := some ((p.saved g).map FrameInfo.stored), closed := true } := by
  have hlen : (p.saved g).length = p.frames.length := by
    rw [Program.saved, List.length_map, infos_length hg]
  have hsave := collect_encoding (o := o) (hlen ▸ hpos : 1 ≤ (p.saved g).length)
  rw [hfile]
  exact (saved_stores (hlen ▸ hpos) (hlen ▸ hmax) hsave rest).dumpLoad

theorem loaded_reports {alloca : Nat → BitVec 64}
    {memory : BitVec 64 → List UInt8}
    (hmemory : ∀ i frame, ((p.saved g).map FrameInfo.stored)[i]? = some frame →
      memory (alloca i) = cString frame.module) (stale : Nat → AddrInfo) :
    reports (fun i => (lib i).within openPath memory) stale 0
        (placed alloca ((p.saved g).map FrameInfo.stored)) =
      reports (p.library lib openPath) stale 0 (p.infos g) := by
  refine reports_frames (by simp [placed, Program.saved]) fun j frame frame' hframe hframe' => ?_
  have hstored : ((p.saved g).map FrameInfo.stored)[j]? = some (p.named frame').stored := by
    rw [Program.saved, List.map_map, List.getElem?_map, hframe']
    rfl
  have hplaced : frame = { (p.named frame').stored with module := alloca j } := by
    rw [placed, List.getElem?_mapIdx, hstored] at hframe
    exact (Option.some.inj hframe).symm
  subst hplaced
  refine ⟨rfl, results_within ?_ rfl⟩
  rw [hmemory j _ hstored]
  exact cString_terminated _

theorem dump_reports (hp : p.Found) (hg : g.Fits p) (hpos : 1 ≤ p.frames.length) {g' : Garbage}
    (hg' : g'.Fits p) : (p.dump lib openPath g').1 = 0 ∧
      (p.dump lib openPath g').2.filterMap Event.report =
        reports (p.library lib openPath) g'.addrInfo 0 (p.infos g) := by
  rw [Program.dump, if_neg (by omega), infos_congr hp hg hg']
  exact ⟨rfl, rfl⟩

def Program.Complete (p : Program) (lib : Nat → Libbfd)
    (openPath : List UInt8 → Option (BitVec 64)) : Prop :=
  ∀ i frame dl found, p.frames[i]? = some frame → p.dladdr i = some dl →
    (p.library lib openPath i).results (dl.record frame) = some found → Backtrace.Complete found

theorem complete_iff (hp : p.Found) (hg : g.Fits p) : p.Complete lib openPath ↔
    ∀ i info found, (p.infos g)[i]? = some info →
      (p.library lib openPath (0 + i)).results info = some found → Backtrace.Complete found := by
  constructor
  · intro hall i info found hinfo hfound
    obtain ⟨hi, -⟩ := List.getElem?_eq_some_iff.mp hinfo
    rw [infos_length hg] at hi
    obtain ⟨dl, hdl⟩ := Option.isSome_iff_exists.mp (hp i hi)
    have hframe := List.getElem?_eq_getElem hi
    obtain rfl := Option.some.inj ((infos_getElem? hg hframe hdl).symm.trans hinfo)
    rw [Nat.zero_add] at hfound
    exact hall i _ dl found hframe hdl hfound
  · intro hall i frame dl found hframe hdl hfound
    refine hall i _ found (infos_getElem? hg hframe hdl) ?_
    rwa [Nat.zero_add]

theorem exists_loaded (hg : g.Fits p) (hpos : 1 ≤ p.frames.length)
    (hmax : p.frames.length ≤ maxDepth) (hfile : f.accepted = encoding o (p.saved g)) :
    ∃ alloca memory, Loaded o alloca memory (f.accepted ++ []) := by
  let stored := (p.saved g).map FrameInfo.stored
  refine ⟨fun i => BitVec.ofNat 64 i,
    fun ptr => stored[ptr.toNat]?.elim [] fun frame => cString frame.module, ?_⟩
  intro frames i frame hframes hframe
  rw [load_file hg hpos hmax hfile] at hframes
  cases hframes
  obtain ⟨hi, -⟩ := List.getElem?_eq_some_iff.mp hframe
  have hlen : ((p.saved g).map FrameInfo.stored).length = p.frames.length := by
    rw [List.length_map, Program.saved, List.length_map, infos_length hg]
  unfold maxDepth at hmax
  have hsame : (BitVec.ofNat 64 i).toNat = i := by
    rw [BitVec.toNat_ofNat]
    omega
  dsimp only
  rw [hsame, hframe]
  rfl

end

/-- A backtrace that has been saved, with buffers of whatever size, and loaded is reported as it
would have been at once, whatever memory has held and wherever the paths are put, if and only if a
file and a function are found for each frame that is reported. -/
theorem saved_report_iff (o : Codec.Order) {p : Program} {lib : Nat → Libbfd}
    {openPath : List UInt8 → Option (BitVec 64)} {size : Nat} {accepts : Nat → Nat} {f : File}
    {g : Garbage} (hsize : 0 < size) (hpos : 1 ≤ p.frames.length)
    (hmax : p.frames.length ≤ maxDepth) (hp : p.Found) (hg : g.Fits p)
    (hsave : p.save o (buffered size accepts true) g = (0, some f))
    (hlost : ¬ LostAtClose o size accepts (p.saved g)) :
    (∀ alloca memory rest (g' g'' : Garbage), g'.Fits p →
        Loaded o alloca memory (f.accepted ++ rest) →
        (load o lib openPath alloca memory g'' (f.accepted ++ rest)).1 =
          (p.dump lib openPath g').1 ∧
        (load o lib openPath alloca memory g'' (f.accepted ++ rest)).2.filterMap Event.report =
          (p.dump lib openPath g').2.filterMap Event.report) ↔
      p.Complete lib openPath := by
  have hfile := save_complete hsize hlost hsave
  have hloads (alloca : Nat → BitVec 64) (memory : BitVec 64 → List UInt8) (rest : List UInt8)
      (g'' : Garbage) (hloaded : Loaded o alloca memory (f.accepted ++ rest)) :
      (load o lib openPath alloca memory g'' (f.accepted ++ rest)).1 = 0 ∧
        (load o lib openPath alloca memory g'' (f.accepted ++ rest)).2.filterMap Event.report =
          reports (p.library lib openPath) g''.addrInfo 0 (p.infos g) := by
    have hload := load_file hg hpos hmax hfile rest
    rw [load, hload]
    refine ⟨rfl, loaded_reports (fun i frame hframe => ?_) g''.addrInfo⟩
    exact hloaded _ i frame (by rw [hload]) hframe
  have hdumps (g' : Garbage) (hg' : g'.Fits p) : (p.dump lib openPath g').1 = 0 ∧
      (p.dump lib openPath g').2.filterMap Event.report =
        reports (p.library lib openPath) g'.addrInfo 0 (p.infos g) := dump_reports hp hg hpos hg'
  rw [complete_iff hp hg, ← reports_same_iff (p.library lib openPath) 0 (p.infos g)]
  constructor
  · intro hall stale stale'
    obtain ⟨alloca, memory, hloaded⟩ := exists_loaded hg hpos hmax hfile
    have hsame := (hall alloca memory [] { g with addrInfo := stale' }
      { g with addrInfo := stale } hg hloaded).2
    rwa [(hloads alloca memory [] _ hloaded).2,
      (hdumps { g with addrInfo := stale' } hg).2] at hsame
  · intro hsame alloca memory rest g' g'' hg' hloaded
    obtain ⟨hret, hreports⟩ := hloads alloca memory rest g'' hloaded
    obtain ⟨hret', hreports'⟩ := hdumps g' hg'
    exact ⟨hret.trans hret'.symm, hreports.trans ((hsame _ _).trans hreports'.symm)⟩

def traced : Program where
  frames := [100, 200]
  dladdr _ := some { fname := 7, fbase := 64 }
  memory _ := { bytes := [47, 98], noNul := by decide, fits := by decide }

def debugInfo : Libbfd where
  openr _ := none
  checkFormat _ := true
  hasSyms _ := true
  readMinisymbols _ _ := (1, 6)
  sections _ := [1]
  findNearestLine _ _ _ _ := some { file := 8, function := 9, line := 3 }

theorem traced_report : ∃ g f,
    traced.save .big (buffered 4096 (fun _ => 4096) true) g = (0, some f) ∧
    ∀ alloca memory rest (g' g'' : Garbage), g'.Fits traced →
      Loaded .big alloca memory (f.accepted ++ rest) →
      (load .big (fun _ => debugInfo) (fun _ => some 5) alloca memory g''
        (f.accepted ++ rest)).2.filterMap Event.report =
      (traced.dump (fun _ => debugInfo) (fun _ => some 5) g').2.filterMap Event.report := by
  let g : Garbage := {
    dlInfo := fun _ => { fname := 0, fbase := 0 }
    addrInfo := fun _ =>
      { bfd := 0, syms := 0, addr := 0, module := 0, function := 0, file := 0, line := 0 }
    infos := [.zero, .zero] }
  obtain ⟨f, hsave⟩ : ∃ f, traced.save .big (buffered 4096 (fun _ => 4096) true) g = (0, some f) :=
    by
      have hwritten := (write_ok_iff (fun _ => 4096) (by decide : 0 < 4096)
        (encoding_pos .big (traced.saved g))).mpr fun _ _ => Nat.le_refl _
      exact ⟨_, (dumpSave_buffered (by decide)).trans (by rw [if_pos hwritten])⟩
  have hcomplete : traced.Complete (fun _ => debugInfo) fun _ => some 5 := by
    intro i frame dl found _ _ hfound
    have hresults : found = [{ file := 8, function := 9, line := 3 }] :=
      (Option.some.inj hfound).symm
    rw [hresults]
    exact ⟨⟨_, List.mem_singleton_self _, by decide⟩, _, List.mem_singleton_self _, by decide⟩
  have hfound : traced.Found := fun i _ => rfl
  have hlost : ¬ LostAtClose .big 4096 (fun _ => 4096) (traced.saved g) := by decide
  have hfits : g.Fits traced := rfl
  have hsame := (saved_report_iff .big (by decide) (by decide) (by decide) hfound hfits hsave
    hlost).mpr hcomplete
  refine ⟨g, f, hsave, fun alloca memory rest g' g'' hg' hloaded => ?_⟩
  exact (hsame alloca memory rest g' g'' hg' hloaded).2

end Flyzero.Backtrace
