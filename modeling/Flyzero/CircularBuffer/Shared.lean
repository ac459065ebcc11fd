import Flyzero.CircularBuffer.Attach
import Flyzero.CircularBuffer.Stream
import Flyzero.Lib.Trace

/-! Named buffers of any number of processes: the objects of shared memory, their names, and the
mappings by which the processes reach them. -/
namespace Flyzero.CircularBuffer

/-- An object of shared memory with the ring in it, what has been written to the ring and read from
it, and whether `destroy` has been called for it. -/
structure Object where
  name : Option (List UInt8)
  header : Header
  ring : Nat → UInt8
  written : List UInt8
  consumed : List UInt8
  destroyed : Bool

def Object.new (name : Option (List UInt8)) (header : Header) : Object :=
  { name, header, ring := fun _ => 0, written := [], consumed := [], destroyed := false }

def Object.buffer (o : Object) (addr : Word) : Buffer := ⟨addr, o.header, o.ring⟩

def Object.session (o : Object) (addr : Word) : Session := ⟨o.buffer addr, o.written, o.consumed⟩

def Object.update (o : Object) (s : Session) : Object :=
  { o with
    header := s.buffer.header
    ring := s.buffer.ring
    written := s.written
    consumed := s.consumed }

structure Space where
  objects : List Object
  names : List UInt8 → Option Nat
  pointers : Nat → Option (Nat × Word)

namespace Space

def start : Space := { objects := [], names := fun _ => none, pointers := fun _ => none }

def point (w : Space) (x : Nat) (p : Option (Nat × Word)) : Space :=
  { w with pointers := Function.update w.pointers x p }

def newObject (w : Space) (name : Option (List UInt8)) (header : Header) : Space :=
  { w with
    objects := w.objects ++ [.new name header]
    names :=
      match name with
      | none => w.names
      | some n => Function.update w.names n (some w.objects.length) }

def modify (w : Space) (i : Nat) (o : Object) : Space := { w with objects := w.objects.set i o }

def unlink (w : Space) (name : Option (List UInt8)) : Space :=
  match name with
  | none => w
  | some n => { w with names := Function.update w.names n none }

def find (w : Space) (name : List UInt8) : Option (Nat × Object) :=
  (w.names name).bind fun i => (w.objects[i]?).map fun o => (i, o)

def deref (w : Space) (x : Nat) : Option (Nat × Word × Object) :=
  (w.pointers x).bind fun p => (w.objects[p.1]?).map fun o => (p.1, p.2, o)

/-- With `O_EXCL` a name is created that was not there. It is a string, not empty, and one that the
header has room for. -/
def Creates (w : Space) (out : Outcomes) (name : List UInt8) : Prop :=
  0 ≤ out.shmOpen →
    w.names name = none ∧ name ≠ [] ∧ 0 ∉ name ∧ 156 + (name.length + 1) ≤ sizeofHeader.toNat

instance (w : Space) (out : Outcomes) (name : List UInt8) : Decidable (w.Creates out name) :=
  inferInstanceAs (Decidable (_ → _))

def create (w : Space) (x : Nat) (out : Outcomes) (name : Option (List UInt8))
    (capacity privateSize : Word) (flag : BitVec 32) : Space :=
  match CircularBuffer.create out name capacity privateSize flag with
  | some (some (addr, header), _) =>
    (w.newObject name header).point x (some (w.objects.length, addr))
  | _ =>
    -- behind `shm_open` a failure leaves the name, with an object that has no header
    if capacity ≠ 0 ∧ name ≠ none ∧ 0 ≤ out.shmOpen then w.newObject name blank else w

def attach (w : Space) (x : Nat) (out : Outcomes) (name : List UInt8) (nread : Int) : Space :=
  match w.find name with
  | none => w
  | some (i, o) =>
    match CircularBuffer.attach out name nread o.header with
    | some (some addr, _) => w.point x (some (i, addr))
    | _ => w

def destroy (w : Space) (x : Nat) : Option Space :=
  (w.deref x).map fun (i, addr, o) =>
    let w := w.unlink (CircularBuffer.destroy (o.buffer addr)).1
    (w.modify i { o with destroyed := true }).point x none

def round (w : Space) (x : Nat) (r : Round) : Option Space :=
  (w.deref x).bind fun (i, addr, o) =>
    (CircularBuffer.round (o.session addr) r).map fun s => w.modify i (o.update s)

end Space

inductive Call where
  | create (x : Nat) (out : Outcomes) (name : Option (List UInt8)) (capacity privateSize : Word)
      (flag : BitVec 32)
  | attach (x : Nat) (out : Outcomes) (name : List UInt8) (nread : Int)
  | fork (x y : Nat)
  | detach (x : Nat)
  | destroy (x : Nat)
  | round (x : Nat) (r : Round)

/-- A result is stored in a variable that points nowhere. The end of a process detaches. -/
def call (w : Space) : Call → Option Space
  | .create x out name capacity privateSize flag =>
    if w.pointers x = none ∧ ∀ n ∈ name, w.Creates out n then
      some (w.create x out name capacity privateSize flag)
    else none
  | .attach x out name nread =>
    if w.pointers x = none ∧ (0 ≤ out.shmOpen → w.names name ≠ none) then
      some (w.attach x out name nread)
    else none
  | .fork x y => if w.pointers y = none then (w.pointers x).map fun p => w.point y (some p) else none
  | .detach x => (w.pointers x).map fun _ => w.point x none
  | .destroy x => w.destroy x
  | .round x r => w.round x r

/-- A name leads to the object that was created with it and that nobody has destroyed, and the bytes
read from a ring through any mapping are, in order, those written to it through any. -/
structure Space.Sound (w : Space) : Prop where
  names : ∀ n i, w.names n = some i ↔
    ∃ o, w.objects[i]? = some o ∧ o.name = some n ∧ o.destroyed = false
  streams : ∀ (i : Nat) (o : Object) (addr : Word), w.objects[i]? = some o →
    (∃ k, o.header.capacity.toNat = 2 ^ k) →
    o.consumed ++ contents (o.buffer addr) = o.written

/-! One object. -/

theorem round_frame {s t : Session} {r : Round} (h : CircularBuffer.round s r = some t) :
    t.buffer.addr = s.buffer.addr ∧ t.buffer.header.name = s.buffer.header.name ∧
      t.buffer.header.capacity = s.buffer.header.capacity := by
  cases r with
  | produce bytes =>
    obtain ⟨-, ht⟩ := Option.ite_none_right_eq_some.mp h
    cases ht
    simp [pushData]
  | consume k =>
    obtain ⟨-, ht⟩ := Option.ite_none_right_eq_some.mp h
    cases ht
    simp [popData]

theorem Faithful.mapped {k : Nat} {o : Object} {addr : Word} (h : Faithful k (o.session addr))
    (addr' : Word) : Faithful k (o.session addr') := by
  obtain ⟨⟨lo, hi, hat⟩, hstream⟩ := h
  have hat' : At (o.buffer addr') k lo hi := ⟨hat.cap, hat.r, hat.w, hat.le, hat.room⟩
  have hsame : contents (o.buffer addr') = contents (o.session addr).buffer :=
    hat'.contents_eq.trans hat.contents_eq.symm
  refine ⟨⟨lo, hi, hat'⟩, ?_⟩
  change o.consumed ++ contents (o.buffer addr') = o.written
  rw [hsame]
  exact hstream

def Object.Created (o : Object) : Prop := o.header.name = storedName o.name

structure Object.Ok (o : Object) : Prop where
  name : ∀ n ∈ o.name, n ≠ [] ∧ 0 ∉ n
  header : o.Created ∨ o.header = blank
  stream : ∀ k addr, o.header.capacity.toNat = 2 ^ k → Faithful k (o.session addr)

section
variable {o : Object} {s : Session} {addr : Word} {r : Round}

theorem Object.Ok.round (h : o.Ok) (hcreated : o.Created)
    (hr : CircularBuffer.round (o.session addr) r = some s) :
    (o.update s).Ok ∧ (o.update s).Created := by
  obtain ⟨-, hname, hcapacity⟩ := round_frame hr
  have hcreated' : (o.update s).Created := hname.trans hcreated
  refine ⟨⟨h.name, .inl hcreated', fun k addr' hk => ?_⟩, hcreated'⟩
  have hold := h.stream k addr (hcapacity ▸ hk)
  have hfaithful : Faithful k ((o.update s).session s.buffer.addr) := round_faithful _ r s hr hold
  exact hfaithful.mapped addr'

theorem Object.Ok.attached (h : o.Ok) {out : Outcomes} {name : List UInt8} {nread : Int}
    {calls : List SysCall}
    (hattach : CircularBuffer.attach out name nread o.header = some (some addr, calls)) :
    o.Created := by
  cases h.header with
  | inl hcreated => exact hcreated
  | inr hblank =>
    rw [hblank, CircularBuffer.attach] at hattach
    dsimp only at hattach
    split at hattach
    · cases hattach
    · obtain ⟨⟨res, calls'⟩, hf, hres⟩ := Option.map_eq_some_iff.mp hattach
      unfold fattach at hf
      split at hf
      · cases hf
      · split at hf
        · have haborts : Aborts out (alignedHeaderSize blank.privateSize blank.pageMask)
              blank.capacity := .inr (.inl rfl)
          rw [mapSharedMemory_aborts haborts] at hf
          cases hf
        · cases hf
          cases hres

end

/-! The name space. -/

structure Space.Inv (w : Space) : Prop where
  objects : ∀ (i : Nat) o, w.objects[i]? = some o → o.Ok
  pointers : ∀ x i addr, w.pointers x = some (i, addr) → ∃ o, w.objects[i]? = some o ∧ o.Created
  names : ∀ n i, w.names n = some i →
    ∃ o, w.objects[i]? = some o ∧ o.name = some n ∧ o.destroyed = false

def Space.Named (w : Space) : Prop :=
  ∀ (i : Nat) o n, w.objects[i]? = some o → o.name = some n → o.destroyed = false →
    w.names n = some i

theorem Space.Inv.sound_iff {w : Space} (h : w.Inv) : w.Sound ↔ w.Named := by
  constructor
  · intro hsound i o n ho hname hdestroyed
    exact (hsound.names n i).mpr ⟨o, ho, hname, hdestroyed⟩
  · intro hnamed
    refine ⟨fun n i => ⟨h.names n i, ?_⟩, ?_⟩
    · intro hobject
      obtain ⟨o, ho, hname, hdestroyed⟩ := hobject
      exact hnamed i o n ho hname hdestroyed
    · intro i o addr ho hpow
      obtain ⟨k, hk⟩ := hpow
      exact ((h.objects i o ho).stream k addr hk).stream

section
variable {w w' : Space} {x i : Nat} {addr : Word} {o o' : Object} {name : Option (List UInt8)}
  {header : Header}

theorem Space.Inv.point (h : w.Inv) {p : Option (Nat × Word)}
    (hp : ∀ i addr, p = some (i, addr) → ∃ o, w.objects[i]? = some o ∧ o.Created) :
    (w.point x p).Inv := by
  refine ⟨h.objects, fun y i addr hy => ?_, h.names⟩
  by_cases hyx : y = x
  · subst hyx
    exact hp i addr (by simpa [Space.point] using hy)
  · exact h.pointers y i addr (by simpa [Space.point, hyx] using hy)

theorem getElem?_newObject : (w.newObject name header).objects[i]? = some o ↔
    w.objects[i]? = some o ∨ i = w.objects.length ∧ o = .new name header :=
  Trace.getElem?_concat_iff

theorem newObject_names (n : List UInt8) : (w.newObject name header).names n =
    if name = some n then some w.objects.length else w.names n := by
  cases name with
  | none => simp [Space.newObject]
  | some m =>
    by_cases hm : m = n
    · simp [Space.newObject, hm]
    · simp [Space.newObject, hm, Ne.symm hm]

structure Unused (name : Option (List UInt8)) (header : Header) : Prop where
  string : ∀ n ∈ name, n ≠ [] ∧ 0 ∉ n
  stored : header.name = storedName name ∨ header = blank
  r : header.r = 0
  w : header.w = 0

theorem Unused.ok (h : Unused name header) : (Object.new name header).Ok := by
  refine ⟨h.string, h.stored, fun k addr hk => ?_⟩
  have hat : At ((Object.new name header).buffer addr) k 0 0 :=
    ⟨hk, h.r, h.w, le_rfl, Nat.zero_le _⟩
  exact ⟨⟨0, 0, hat⟩, hat.contents_eq⟩

theorem Space.Inv.newObject (h : w.Inv) (hnew : Unused name header) :
    (w.newObject name header).Inv := by
  refine ⟨fun i o ho => ?_, fun y i addr hy => ?_, fun n i hn => ?_⟩
  · obtain hold | ⟨-, rfl⟩ := getElem?_newObject.mp ho
    · exact h.objects i o hold
    · exact hnew.ok
  · obtain ⟨o, ho, hcreated⟩ := h.pointers y i addr hy
    exact ⟨o, getElem?_newObject.mpr (.inl ho), hcreated⟩
  · rw [newObject_names] at hn
    split at hn
    · rename_i hname
      cases hn
      exact ⟨_, getElem?_newObject.mpr (.inr ⟨rfl, rfl⟩), hname, rfl⟩
    · obtain ⟨o, ho, hobject⟩ := h.names n i hn
      exact ⟨o, getElem?_newObject.mpr (.inl ho), hobject⟩

theorem Space.Named.newObject (h : w.Named) (hfree : ∀ n ∈ name, w.names n = none) :
    (w.newObject name header).Named := by
  intro i o n ho hname hdestroyed
  rw [newObject_names]
  obtain hold | ⟨rfl, rfl⟩ := getElem?_newObject.mp ho
  · have hlead := h i o n hold hname hdestroyed
    split
    · rename_i hn
      cases (hfree n hn).symm.trans hlead
    · exact hlead
  · exact if_pos hname

theorem getElem?_modify {j : Nat} (hi : w.objects[i]? = some o) :
    (w.modify i o').objects[j]? = if j = i then some o' else w.objects[j]? := by
  have hlt : i < w.objects.length := (List.getElem?_eq_some_iff.mp hi).1
  change (w.objects.set i o')[j]? = _
  rw [List.getElem?_set]
  by_cases hij : j = i
  · simp [hij, hlt]
  · simp [hij, Ne.symm hij]

theorem Space.Inv.modify (h : w.Inv) (hi : w.objects[i]? = some o) (hok : o'.Ok)
    (hcreated : o'.Created) (hnames : ∀ n, w.names n = some i →
      o'.name = some n ∧ o'.destroyed = false) : (w.modify i o').Inv := by
  refine ⟨fun j p hj => ?_, fun y j addr hy => ?_, fun n j hn => ?_⟩
  · rw [getElem?_modify hi] at hj
    split at hj
    · cases hj
      exact hok
    · exact h.objects j p hj
  · rw [getElem?_modify hi]
    split
    · exact ⟨o', rfl, hcreated⟩
    · exact h.pointers y j addr hy
  · rw [getElem?_modify hi]
    split
    · rename_i heq
      subst heq
      exact ⟨o', rfl, hnames n hn⟩
    · exact h.names n j hn

theorem unlink_names (n : List UInt8) :
    (w.unlink name).names n = if name = some n then none else w.names n := by
  cases name with
  | none => simp [Space.unlink]
  | some m =>
    by_cases hm : m = n
    · simp [Space.unlink, hm]
    · simp [Space.unlink, hm, Ne.symm hm]

theorem unlink_frame : (w.unlink name).objects = w.objects ∧
    (w.unlink name).pointers = w.pointers := by
  cases name with
  | none => exact ⟨rfl, rfl⟩
  | some n => exact ⟨rfl, rfl⟩

theorem Space.Inv.unlink (h : w.Inv) : (w.unlink name).Inv := by
  have hframe : (w.unlink name).objects = w.objects ∧ (w.unlink name).pointers = w.pointers :=
    unlink_frame
  obtain ⟨hobjects, hpointers⟩ := hframe
  refine ⟨?_, ?_, fun n i hn => ?_⟩
  · rw [hobjects]
    exact h.objects
  · rw [hobjects, hpointers]
    exact h.pointers
  · rw [unlink_names] at hn
    rw [hobjects]
    exact h.names n i (Option.ite_none_left_eq_some.mp hn).2

def Space.destroyed (w : Space) (x i : Nat) (o : Object) : Space :=
  ((w.unlink o.name).modify i { o with destroyed := true }).point x none

theorem Space.Inv.destroyed (h : w.Inv) (hi : w.objects[i]? = some o) (hcreated : o.Created) :
    (w.destroyed x i o).Inv := by
  have hok := h.objects i o hi
  have hi' : (w.unlink o.name).objects[i]? = some o := by
    rw [unlink_frame.1]
    exact hi
  have hok' : Object.Ok { o with destroyed := true } := ⟨hok.name, hok.header, hok.stream⟩
  refine Space.Inv.point (h.unlink.modify hi' hok' hcreated ?_) ?_
  · intro n hn
    rw [unlink_names] at hn
    obtain ⟨hne, hn⟩ := Option.ite_none_left_eq_some.mp hn
    obtain ⟨p, hp, hname, -⟩ := h.names n i hn
    obtain rfl := Option.some.inj (hi.symm.trans hp)
    exact absurd hname hne
  · simp

theorem create_opened {out : Outcomes} {n : List UInt8} {capacity privateSize : Word}
    {flag : BitVec 32} {cb : Word × Header} {calls : List SysCall}
    (h : CircularBuffer.create out (some n) capacity privateSize flag = some (some cb, calls)) :
    0 ≤ out.shmOpen := by
  by_contra hneg
  unfold CircularBuffer.create at h
  split at h
  · cases h
  · dsimp only at h
    rw [if_pos (Int.not_le.mp hneg)] at h
    cases h

theorem create_unused {out : Outcomes} {capacity privateSize : Word} {flag : BitVec 32}
    {calls : List SysCall} (hcreates : ∀ n ∈ name, w.Creates out n)
    (h : CircularBuffer.create out name capacity privateSize flag =
      some (some (addr, header), calls)) :
    header.name = storedName name ∧ Unused name header ∧ ∀ n ∈ name, w.names n = none := by
  obtain ⟨shmfd, header₀, calls₀, hf, hheader⟩ := create_some h
  obtain ⟨hr, hw, -, -⟩ := create_fresh h
  have hstored : header.name = storedName name := by rw [hheader]
  have hopened (n : List UInt8) (hn : n ∈ name) : w.names n = none ∧ n ≠ [] ∧ 0 ∉ n := by
    obtain rfl : name = some n := hn
    obtain ⟨hfree, hne, hzero, -⟩ := hcreates n rfl (create_opened h)
    exact ⟨hfree, hne, hzero⟩
  exact ⟨hstored, ⟨fun n hn => (hopened n hn).2, .inl hstored, hr, hw⟩,
    fun n hn => (hopened n hn).1⟩

theorem Space.Inv.create (h : w.Inv) {out : Outcomes} {capacity privateSize : Word}
    {flag : BitVec 32} (hcreates : ∀ n ∈ name, w.Creates out n) :
    (w.create x out name capacity privateSize flag).Inv ∧
      (w.Named → (w.create x out name capacity privateSize flag).Named) := by
  unfold Space.create
  split
  · rename_i addr header calls hcreate
    obtain ⟨hstored, hunused, hfree⟩ := create_unused hcreates hcreate
    refine ⟨(h.newObject hunused).point ?_, fun hnamed => hnamed.newObject hfree⟩
    intro i a hp
    cases hp
    exact ⟨_, getElem?_newObject.mpr (.inr ⟨rfl, rfl⟩), hstored⟩
  · split
    · rename_i hopened
      obtain ⟨-, -, hopen⟩ := hopened
      have hunused : Unused name blank :=
        ⟨fun n hn => ⟨(hcreates n hn hopen).2.1, (hcreates n hn hopen).2.2.1⟩, .inr rfl, rfl, rfl⟩
      exact ⟨h.newObject hunused, fun hnamed => hnamed.newObject fun n hn => (hcreates n hn hopen).1⟩
    · exact ⟨h, id⟩

theorem find_some {n : List UInt8} (h : w.find n = some (i, o)) :
    w.names n = some i ∧ w.objects[i]? = some o := by
  obtain ⟨j, hj, hmap⟩ := Option.bind_eq_some_iff.mp h
  obtain ⟨p, hp, heq⟩ := Option.map_eq_some_iff.mp hmap
  cases heq
  exact ⟨hj, hp⟩

theorem deref_some (h : w.deref x = some (i, addr, o)) :
    w.pointers x = some (i, addr) ∧ w.objects[i]? = some o := by
  obtain ⟨p, hp, hmap⟩ := Option.bind_eq_some_iff.mp h
  obtain ⟨q, hq, heq⟩ := Option.map_eq_some_iff.mp hmap
  cases heq
  exact ⟨hp, hq⟩

theorem Space.Inv.created (h : w.Inv) (hx : w.deref x = some (i, addr, o)) :
    w.objects[i]? = some o ∧ o.Created := by
  obtain ⟨hpointer, ho⟩ := deref_some hx
  obtain ⟨p, hp, hcreated⟩ := h.pointers x i addr hpointer
  obtain rfl := Option.some.inj (hp.symm.trans ho)
  exact ⟨ho, hcreated⟩

theorem Space.Inv.attach (h : w.Inv) {out : Outcomes} {n : List UInt8} {nread : Int} :
    (w.attach x out n nread).Inv ∧ (w.Named → (w.attach x out n nread).Named) := by
  unfold Space.attach
  split
  · exact ⟨h, id⟩
  · rename_i i o hfind
    split
    · rename_i addr calls hattach
      obtain ⟨-, ho⟩ := find_some hfind
      refine ⟨h.point ?_, id⟩
      intro j a hp
      cases hp
      exact ⟨o, ho, (h.objects i o ho).attached hattach⟩
    · exact ⟨h, id⟩

theorem Space.Inv.round (h : w.Inv) {r : Round} (hround : w.round x r = some w') :
    w'.Inv ∧ (w.Named → w'.Named) := by
  obtain ⟨⟨i, addr, o⟩, hx, hmap⟩ := Option.bind_eq_some_iff.mp hround
  obtain ⟨s, hs, rfl⟩ := Option.map_eq_some_iff.mp hmap
  obtain ⟨ho, hcreated⟩ := h.created hx
  obtain ⟨hok, hcreated'⟩ := (h.objects i o ho).round hcreated hs
  constructor
  · refine h.modify ho hok hcreated' fun n hn => ?_
    obtain ⟨p, hp, hname, hdestroyed⟩ := h.names n i hn
    obtain rfl := Option.some.inj (ho.symm.trans hp)
    exact ⟨hname, hdestroyed⟩
  · intro hnamed j p n hp hname hdestroyed
    rw [getElem?_modify ho] at hp
    split at hp
    · rename_i hj
      subst hj
      cases hp
      exact hnamed j o n ho hname hdestroyed
    · exact hnamed j p n hp hname hdestroyed

end

theorem start_inv : Space.start.Inv where
  objects i o ho := by simp [Space.start] at ho
  pointers x i addr hx := by simp [Space.start] at hx
  names n i hn := by simp [Space.start] at hn

end Flyzero.CircularBuffer
