import Flyzero.Backtrace.Dump

/-! What `backtrace_dump_frames` tells its callback. Pointers are numbers and null is zero; locals
that are not initialised hold anything. -/
namespace Flyzero.Backtrace

structure AddrInfo where
  bfd : BitVec 64
  syms : BitVec 64
  addr : BitVec 64
  module : BitVec 64
  function : BitVec 64
  file : BitVec 64
  line : BitVec 32

structure Nearest where
  file : BitVec 64
  function : BitVec 64
  line : BitVec 32

/-- The answers of libbfd; `readMinisymbols` gives the count and the table, for the static or the
dynamic symbols. -/
structure Libbfd where
  openr : BitVec 64 → Option (BitVec 64)
  checkFormat : BitVec 64 → Bool
  hasSyms : BitVec 64 → Bool
  readMinisymbols : BitVec 64 → Bool → Int × BitVec 64
  sections : BitVec 64 → List (BitVec 64)
  findNearestLine : (bfd section_ syms offset : BitVec 64) → Option Nearest

structure Report where
  frameNo : Nat
  addr : BitVec 64
  function : BitVec 64
  file : BitVec 64
  line : BitVec 32

inductive Event where
  | closed (bfd : BitVec 64)
  | freed (syms : BitVec 64)
  | callback (report : Report)

def AddrInfo.locate (info : AddrInfo) : Option Nearest → AddrInfo
  | none => info
  | some found =>
    let info := if found.file ≠ 0 then { info with file := found.file } else info
    let info := if found.function ≠ 0 then { info with function := found.function } else info
    { info with line := found.line }

/-- The return value, the structure and what has been released. -/
def getAddrinfo (lib : Libbfd) (frame : FrameInfo (BitVec 64)) (info : AddrInfo) :
    Int × AddrInfo × List Event :=
  match lib.openr frame.module with
  | none => (-1, info, [])
  | some bfd =>
    if !lib.checkFormat bfd then (-1, info, [.closed bfd])
    else if !lib.hasSyms bfd then (-1, info, [.closed bfd])
    else
      let (symCount, syms) := lib.readMinisymbols bfd false
      let (symCount, syms) :=
        if symCount = 0 then lib.readMinisymbols bfd true else (symCount, syms)
      if symCount ≤ 0 then (-1, info, [.closed bfd])
      else
        let found := (lib.sections bfd).map fun s => lib.findNearestLine bfd s syms frame.offset
        let info := found.foldl AddrInfo.locate info
        (0, { info with module := frame.module, addr := frame.base, bfd, syms }, [])

/-- The structure is zeroed in the end, which nobody sees. -/
def addrinfoFree (info : AddrInfo) : List Event :=
  (if info.syms ≠ 0 then [.freed info.syms] else []) ++
    if info.bfd ≠ 0 then [.closed info.bfd] else []

/-- A round of the loop, with what `addrinfo` holds at its start. -/
def dumpFrame (lib : Libbfd) (stale : AddrInfo) (i : Nat) (frame : FrameInfo (BitVec 64)) :
    List Event :=
  let (ret, info, events) := getAddrinfo lib frame stale
  if ret = 0 then
    events ++ .callback ⟨i, info.addr, info.function, info.file, info.line⟩ :: addrinfoFree info
  else events

def dumpFrames (lib : Nat → Libbfd) (stale : Nat → AddrInfo) :
    Nat → List (FrameInfo (BitVec 64)) → List Event
  | _, [] => []
  | i, frame :: frames => dumpFrame (lib i) (stale i) i frame ++ dumpFrames lib stale (i + 1) frames

def Event.report : Event → Option Report
  | .callback report => some report
  | _ => none

def reports (lib : Nat → Libbfd) (stale : Nat → AddrInfo) (i : Nat)
    (frames : List (FrameInfo (BitVec 64))) : List Report :=
  (dumpFrames lib stale i frames).filterMap Event.report

def Libbfd.symbols (lib : Libbfd) (module : BitVec 64) : Option (BitVec 64 × BitVec 64) :=
  (lib.openr module).bind fun bfd =>
    let static := lib.readMinisymbols bfd false
    let table := if static.1 = 0 then lib.readMinisymbols bfd true else static
    if lib.checkFormat bfd ∧ lib.hasSyms bfd ∧ 0 < table.1 then some (bfd, table.2) else none

def Libbfd.results (lib : Libbfd) (frame : FrameInfo (BitVec 64)) : Option (List Nearest) :=
  (lib.symbols frame.module).map fun table =>
    (lib.sections table.1).filterMap fun s =>
      lib.findNearestLine table.1 s table.2 frame.offset

def Complete (found : List Nearest) : Prop :=
  (∃ n ∈ found, n.file ≠ 0) ∧ ∃ n ∈ found, n.function ≠ 0

/-- The reports do not depend on what memory has held, and are null where nothing is found. -/
structure StaleFree (lib : Nat → Libbfd) (frames : List (FrameInfo (BitVec 64))) : Prop where
  same : ∀ stale stale', reports lib stale 0 frames = reports lib stale' 0 frames
  null : ∀ stale, ∀ r ∈ reports lib stale 0 frames, ∀ frame, frames[r.frameNo]? = some frame →
    (lib r.frameNo).results frame = some [] → r.function = 0 ∧ r.file = 0 ∧ r.line = 0

/-! One frame. -/
section
variable {lib : Libbfd} {frame : FrameInfo (BitVec 64)} {info info' : AddrInfo}
  {found : List Nearest}

def AddrInfo.gather (info : AddrInfo) (found : List Nearest) : AddrInfo :=
  found.foldl (fun info n => info.locate (some n)) info

theorem foldl_locate {α : Type*} (find : α → Option Nearest) (sections : List α)
    (info : AddrInfo) :
    (sections.map find).foldl AddrInfo.locate info = info.gather (sections.filterMap find) := by
  induction sections generalizing info with
  | nil => rfl
  | cons s sections ih =>
    rw [List.map_cons, List.foldl_cons, ih]
    cases hfind : find s with
    | none => rw [List.filterMap_cons_none hfind, AddrInfo.locate]
    | some n =>
      rw [List.filterMap_cons_some hfind, AddrInfo.gather, AddrInfo.gather, List.foldl_cons]

theorem locate_file (info : AddrInfo) (n : Nearest) :
    (info.locate (some n)).file = if n.file ≠ 0 then n.file else info.file := by
  unfold AddrInfo.locate
  dsimp only
  split <;> split <;> rfl

theorem locate_function (info : AddrInfo) (n : Nearest) :
    (info.locate (some n)).function = if n.function ≠ 0 then n.function else info.function := by
  unfold AddrInfo.locate
  dsimp only
  split <;> split <;> rfl

theorem gather_cons (info : AddrInfo) (n : Nearest) (found : List Nearest) :
    info.gather (n :: found) = (info.locate (some n)).gather found := rfl

theorem gather_field {get : AddrInfo → BitVec 64} {field : Nearest → BitVec 64}
    (hlocate : ∀ info n, get (info.locate (some n)) = if field n ≠ 0 then field n else get info) :
    get (info.gather found) = ((found.filter (field · ≠ 0)).map field).getLastD (get info) := by
  induction found generalizing info with
  | nil => rfl
  | cons n found ih =>
    rw [gather_cons, ih, hlocate]
    by_cases hfield : field n ≠ 0
    · rw [if_pos hfield, List.filter_cons_of_pos (by simpa using hfield), List.map_cons,
        List.getLastD_cons]
    · rw [if_neg hfield, List.filter_cons_of_neg (by simpa using hfield)]

theorem gather_line : (info.gather found).line = (found.map (·.line)).getLastD info.line := by
  induction found generalizing info with
  | nil => rfl
  | cons n found ih =>
    rw [gather_cons, ih, List.map_cons, List.getLastD_cons]
    rfl

theorem getLastD_congr {α : Type*} {l : List α} (h : l ≠ []) (a b : α) :
    l.getLastD a = l.getLastD b := by
  cases l with
  | nil => exact absurd rfl h
  | cons x l => rw [List.getLastD_cons, List.getLastD_cons]

theorem gather_field_congr {get : AddrInfo → BitVec 64} {field : Nearest → BitVec 64}
    (hlocate : ∀ info n, get (info.locate (some n)) = if field n ≠ 0 then field n else get info)
    (hfound : ∃ n ∈ found, field n ≠ 0) : get (info.gather found) = get (info'.gather found) := by
  obtain ⟨n, hn, hfield⟩ := hfound
  have hne : (found.filter (field · ≠ 0)).map field ≠ [] :=
    List.ne_nil_of_mem (List.mem_map_of_mem (List.mem_filter.mpr ⟨hn, decide_eq_true hfield⟩))
  rw [gather_field hlocate, gather_field hlocate, getLastD_congr hne]

theorem gather_field_found {get : AddrInfo → BitVec 64} {field : Nearest → BitVec 64}
    (hlocate : ∀ info n, get (info.locate (some n)) = if field n ≠ 0 then field n else get info)
    (hsame : get (info.gather found) = get (info'.gather found)) (hne : get info ≠ get info') :
    ∃ n ∈ found, field n ≠ 0 := by
  by_contra hnone
  have hempty : found.filter (field · ≠ 0) = [] := by
    rw [List.filter_eq_nil_iff]
    intro n hn hfield
    exact hnone ⟨n, hn, of_decide_eq_true hfield⟩
  rw [gather_field hlocate, gather_field hlocate, hempty] at hsame
  exact hne hsame

theorem addrinfoFree_reports (info : AddrInfo) :
    (addrinfoFree info).filterMap Event.report = [] := by
  unfold addrinfoFree
  split <;> split <;> rfl

theorem getAddrinfo_failed (info : AddrInfo) (h : lib.symbols frame.module = none) : ∃ events,
    getAddrinfo lib frame info = (-1, info, events) ∧ events.filterMap Event.report = [] := by
  unfold getAddrinfo
  cases hopen : lib.openr frame.module with
  | none => exact ⟨[], rfl, rfl⟩
  | some bfd =>
    refine ⟨[.closed bfd], ?_, rfl⟩
    rw [Libbfd.symbols, hopen, Option.bind_some] at h
    by_cases hformat : lib.checkFormat bfd = true
    · by_cases hsyms : lib.hasSyms bfd = true
      · simp only [hformat, hsyms, true_and, ite_eq_right_iff, reduceCtorEq, imp_false] at h
        simp only [hformat, hsyms, Bool.not_true, Bool.false_eq_true, if_false]
        exact if_pos (Int.not_lt.mp h)
      · simp [hformat, hsyms]
    · simp [hformat]

theorem getAddrinfo_found {bfd syms : BitVec 64}
    (h : lib.symbols frame.module = some (bfd, syms)) : getAddrinfo lib frame info =
      (0, { info.gather ((lib.sections bfd).filterMap fun s =>
              lib.findNearestLine bfd s syms frame.offset) with
            module := frame.module, addr := frame.base, bfd, syms }, []) := by
  obtain ⟨b, hopen, h⟩ := Option.bind_eq_some_iff.mp h
  obtain ⟨⟨hformat, hsyms, hcount⟩, heq⟩ := Option.ite_none_right_eq_some.mp h
  cases heq
  unfold getAddrinfo
  rw [hopen]
  simp only [hformat, hsyms, Bool.not_true, Bool.false_eq_true, if_false, foldl_locate]
  exact if_neg (Int.not_le.mpr hcount)

theorem dumpFrame_reports (i : Nat) : (dumpFrame lib info i frame).filterMap Event.report =
    (lib.results frame).elim [] fun found => [{
      frameNo := i, addr := frame.base, function := (info.gather found).function
      file := (info.gather found).file, line := (info.gather found).line }] := by
  cases hsymbols : lib.symbols frame.module with
  | none =>
    obtain ⟨events, hfailed, hnone⟩ := getAddrinfo_failed info hsymbols
    rw [dumpFrame, hfailed, Libbfd.results, hsymbols]
    exact hnone
  | some table =>
    rw [dumpFrame, getAddrinfo_found hsymbols, Libbfd.results, hsymbols]
    simp only [if_true, List.nil_append]
    rw [List.filterMap_cons]
    dsimp only [Event.report]
    rw [addrinfoFree_reports]
    rfl

/-- What memory has held does not show when a file and a function are found, and only then. -/
theorem dumpFrame_same_iff (i : Nat) :
    (∀ info info', (dumpFrame lib info i frame).filterMap Event.report =
      (dumpFrame lib info' i frame).filterMap Event.report) ↔
    ∀ found, lib.results frame = some found → Complete found := by
  constructor
  · intro hsame found hfound
    let stale (p : BitVec 64) : AddrInfo :=
      { bfd := 0, syms := 0, addr := 0, module := 0, function := p, file := p, line := 0 }
    have hreport := hsame (stale 0) (stale 1)
    rw [dumpFrame_reports, dumpFrame_reports, hfound] at hreport
    have hreport := (List.cons.inj hreport).1
    have hfile := congrArg Report.file hreport
    have hfunction := congrArg Report.function hreport
    have hne : (0 : BitVec 64) ≠ 1 := by decide
    exact ⟨gather_field_found locate_file hfile hne,
      gather_field_found locate_function hfunction hne⟩
  · intro hcomplete info info'
    rw [dumpFrame_reports, dumpFrame_reports]
    cases hfound : lib.results frame with
    | none => rfl
    | some found =>
      obtain ⟨hfile, hfunction⟩ := hcomplete found hfound
      have ⟨n, hn, _⟩ := hfile
      have hlines : found.map (·.line) ≠ [] := List.ne_nil_of_mem (List.mem_map_of_mem hn)
      rw [Option.elim, Option.elim, gather_field_congr locate_file hfile,
        gather_field_congr locate_function hfunction, gather_line, gather_line,
        getLastD_congr hlines]

end

/-! All frames. -/
section
variable {lib : Nat → Libbfd} {stale stale' : Nat → AddrInfo} {i : Nat}
  {frames : List (FrameInfo (BitVec 64))}

theorem reports_cons (frame : FrameInfo (BitVec 64)) : reports lib stale i (frame :: frames) =
    (dumpFrame (lib i) (stale i) i frame).filterMap Event.report ++
      reports lib stale (i + 1) frames := by
  rw [reports, dumpFrames, List.filterMap_append, reports]

theorem reports_congr (h : ∀ j, i ≤ j → stale j = stale' j) :
    reports lib stale i frames = reports lib stale' i frames := by
  induction frames generalizing i with
  | nil => rfl
  | cons frame frames ih =>
    rw [reports_cons, reports_cons, h i (Nat.le_refl i), ih fun j hj => h j (Nat.le_of_succ_le hj)]

theorem reports_same_cons (frame : FrameInfo (BitVec 64)) :
    (∀ stale stale', reports lib stale i (frame :: frames) =
      reports lib stale' i (frame :: frames)) ↔
    (∀ info info', (dumpFrame (lib i) info i frame).filterMap Event.report =
      (dumpFrame (lib i) info' i frame).filterMap Event.report) ∧
    ∀ stale stale', reports lib stale (i + 1) frames = reports lib stale' (i + 1) frames := by
  have hlater (stale : Nat → AddrInfo) (info : AddrInfo) :
      reports lib (Function.update stale i info) (i + 1) frames =
        reports lib stale (i + 1) frames :=
    reports_congr fun j hj => Function.update_of_ne (Nat.ne_of_gt hj) _ _
  constructor
  · intro hsame
    constructor
    · intro info info'
      have h := hsame (fun _ => info) (Function.update (fun _ => info) i info')
      rw [reports_cons, reports_cons, hlater, Function.update_self] at h
      exact List.append_cancel_right h
    · intro stale stale'
      have h := hsame stale (Function.update stale' i (stale i))
      rw [reports_cons, reports_cons, hlater, Function.update_self] at h
      exact List.append_cancel_left h
  · rintro ⟨hframe, hframes⟩ stale stale'
    rw [reports_cons, reports_cons, hframe (stale i) (stale' i), hframes stale stale']

theorem reports_same_iff (lib : Nat → Libbfd) (i : Nat) (frames : List (FrameInfo (BitVec 64))) :
    (∀ stale stale', reports lib stale i frames = reports lib stale' i frames) ↔
    ∀ j frame found, frames[j]? = some frame → (lib (i + j)).results frame = some found →
      Complete found := by
  induction frames generalizing i with
  | nil => exact iff_of_true (fun _ _ => rfl) nofun
  | cons frame frames ih =>
    rw [reports_same_cons, dumpFrame_same_iff, ih]
    constructor
    · rintro ⟨hfirst, hrest⟩ j frame' found hframe hfound
      cases j with
      | zero =>
        cases hframe
        exact hfirst found hfound
      | succ j =>
        rw [← Nat.add_assoc, Nat.add_right_comm] at hfound
        exact hrest j frame' found hframe hfound
    · intro hall
      refine ⟨fun found => hall 0 frame found rfl, fun j frame' found hframe hfound => ?_⟩
      rw [Nat.add_right_comm, Nat.add_assoc] at hfound
      exact hall (j + 1) frame' found hframe hfound

end

/-- Nothing initialises the structure for a frame. -/
theorem staleFree_iff (lib : Nat → Libbfd) (frames : List (FrameInfo (BitVec 64))) :
    StaleFree lib frames ↔ ∀ i frame found, frames[i]? = some frame →
      (lib i).results frame = some found → Complete found := by
  have hiff : (∀ stale stale', reports lib stale 0 frames = reports lib stale' 0 frames) ↔
      ∀ i frame found, frames[i]? = some frame → (lib i).results frame = some found →
        Complete found := by
    simpa only [Nat.zero_add] using reports_same_iff lib 0 frames
  constructor
  · exact fun h => hiff.mp h.same
  · intro hall
    refine ⟨hiff.mpr hall, fun stale r _ frame hframe hnone => ?_⟩
    obtain ⟨⟨n, hn, -⟩, -⟩ := hall r.frameNo frame [] hframe hnone
    cases hn

def strippedModule : Libbfd where
  openr _ := some 64
  checkFormat _ := true
  hasSyms _ := true
  readMinisymbols _ _ := (1, 96)
  sections _ := [128]
  findNearestLine _ _ _ _ := none

theorem strippedModule_stale :
    let stale : AddrInfo :=
      { bfd := 0, syms := 0, addr := 0, module := 0, function := 7, file := 8, line := 9 }
    reports (fun _ => strippedModule) (fun _ => stale) 0 [⟨4096, 10, 32⟩] = [⟨0, 4096, 7, 8, 9⟩] ∧
      ¬ StaleFree (fun _ => strippedModule) [⟨4096, 10, 32⟩] := by
  intro stale
  have hreports : reports (fun _ => strippedModule) (fun _ => stale) 0 [⟨4096, 10, 32⟩] =
      [⟨0, 4096, 7, 8, 9⟩] := rfl
  refine ⟨hreports, fun hfree => ?_⟩
  have hnull := hfree.null (fun _ => stale) _ (hreports ▸ List.mem_singleton_self _) _ rfl rfl
  exact absurd hnull.1 (by decide)

end Flyzero.Backtrace
