import Flyzero.CircularQueue.Queue
import Flyzero.Lib.Intervals

/-! What a bounded queue of objects owes its callers, and that `circular_queue` does not pay it:
`at` takes the slot's address from the bytes of the buffer. -/
namespace Flyzero.CircularQueue
open ByteMem
variable {ty : ObjectType}

/-- The queues made so far, by number, over one memory. -/
structure State where
  mem : Mem
  queues : List Queue

inductive Op (V : Type) where
  | push (i : Nat) (v : V)
  | pop (i : Nat)
  | front (i : Nat)
  | moveConstruct (i : Nat)
  | moveAssign (i j : Nat)

inductive Out where
  | constructed (slot : Nat)
  | rejected
  | destroyed (slot : Nat)
  | nothing
  | element (slot : Nat) (bytes : List UInt8)
  | moved
  | assigned (destroyed : List Nat) (freed : Option Nat)

def step (ty : ObjectType) (s : State) : Op ty.Value → Option (Out × State)
  | .push i v =>
    s.queues[i]?.bind fun q =>
      (q.push s.mem (ty.bytes v)).map fun (slot, mem, q) =>
        (slot.elim .rejected .constructed, { mem, queues := s.queues.set i q })
  | .pop i =>
    s.queues[i]?.bind fun q =>
      (q.pop s.mem).map fun (slot, q) =>
        (slot.elim .nothing .destroyed, { s with queues := s.queues.set i q })
  | .front i =>
    s.queues[i]?.bind fun q =>
      (q.front s.mem).map fun slot => (.element slot (load s.mem slot ty.sizeof), s)
  | .moveConstruct i =>
    s.queues[i]?.map fun q =>
      let (new, other) := q.moveConstruct
      (.moved, { s with queues := s.queues.set i other ++ [new] })
  | .moveAssign i j =>
    s.queues[i]?.bind fun q => s.queues[j]?.bind fun other =>
      if i = j then some (.moved, s)
      else
        (q.moveAssign other s.mem).map fun ((slots, freed), q, other) =>
          (.assigned slots freed, { s with queues := (s.queues.set i q).set j other })

structure Contents (V : Type) where
  capacity : Nat
  start : Nat
  len : Nat
  live : List (Nat × V)

def Contents.movedFrom {V : Type} : Contents V := { capacity := 0, start := 0, len := 0, live := [] }

/-- The outcomes a bounded first-in first-out queue allows. -/
inductive Allowed (ty : ObjectType) (cs : List (Contents ty.Value)) :
    Op ty.Value → Out → List (Contents ty.Value) → Prop where
  | constructed {i : Nat} {v : ty.Value} {slot : Nat} {c : Contents ty.Value} (hc : cs[i]? = some c)
      (hroom : c.live.length < c.capacity)
      (hinside : c.start ≤ slot ∧ slot + ty.sizeof ≤ c.start + c.len)
      (hown : ∀ e ∈ c.live, e.1 + ty.sizeof ≤ slot ∨ slot + ty.sizeof ≤ e.1) :
      Allowed ty cs (.push i v) (.constructed slot)
        (cs.set i { c with live := c.live ++ [(slot, v)] })
  | rejected {i : Nat} {v : ty.Value} {c : Contents ty.Value} (hc : cs[i]? = some c)
      (hfull : c.live.length = c.capacity) : Allowed ty cs (.push i v) .rejected cs
  | destroyed {i slot : Nat} {v : ty.Value} {rest : List (Nat × ty.Value)} {c : Contents ty.Value}
      (hc : cs[i]? = some c) (holdest : c.live = (slot, v) :: rest) :
      Allowed ty cs (.pop i) (.destroyed slot) (cs.set i { c with live := rest })
  | nothing {i : Nat} {c : Contents ty.Value} (hc : cs[i]? = some c) (hempty : c.live = []) :
      Allowed ty cs (.pop i) .nothing cs
  | element {i slot : Nat} {v : ty.Value} {rest : List (Nat × ty.Value)} {c : Contents ty.Value}
      (hc : cs[i]? = some c) (holdest : c.live = (slot, v) :: rest) :
      Allowed ty cs (.front i) (.element slot (ty.bytes v)) cs
  | moveConstructed {i : Nat} {c : Contents ty.Value} (hc : cs[i]? = some c) :
      Allowed ty cs (.moveConstruct i) .moved (cs.set i .movedFrom ++ [c])
  | selfAssigned {i : Nat} : Allowed ty cs (.moveAssign i i) .moved cs
  | assigned {i j : Nat} {c d : Contents ty.Value} {freed : Option Nat} (hne : i ≠ j)
      (hc : cs[i]? = some c) (hd : cs[j]? = some d) :
      Allowed ty cs (.moveAssign i j) (.assigned (c.live.map (·.1)) freed)
        ((cs.set i d).set j .movedFrom)

theorem Allowed.constructed_inv {cs cs' : List (Contents ty.Value)} {i slot : Nat} {v : ty.Value}
    (h : Allowed ty cs (.push i v) (.constructed slot) cs') :
    ∃ c, cs[i]? = some c ∧ (c.start ≤ slot ∧ slot + ty.sizeof ≤ c.start + c.len) ∧
      (∀ e ∈ c.live, e.1 + ty.sizeof ≤ slot ∨ slot + ty.sizeof ≤ e.1) ∧
      cs' = cs.set i { c with live := c.live ++ [(slot, v)] } := by
  cases h with
  | constructed hc _ hinside hown => exact ⟨_, hc, hinside, hown, rfl⟩

theorem Allowed.destroyed_inv {cs cs' : List (Contents ty.Value)} {i slot : Nat}
    (h : Allowed ty cs (.pop i) (.destroyed slot) cs') :
    ∃ c v rest, cs[i]? = some c ∧ c.live = (slot, v) :: rest := by
  cases h with
  | destroyed hc holdest => exact ⟨_, _, _, hc, holdest⟩

def Conforms (ty : ObjectType) : List (Op ty.Value) → List (Contents ty.Value) → State → Prop
  | [], _, _ => True
  | op :: ops, cs, s => ∀ out t, step ty s op = some (out, t) →
      ∃ cs', Allowed ty cs op out cs' ∧ Conforms ty ops cs' t

/-- A new queue over the buffer it asked for is a bounded first-in first-out queue. -/
def BoundedFifo (ty : ObjectType) (q : Queue) (mem : Mem) : Prop :=
  ∀ ops, Conforms ty ops
    [{ capacity := q.capacity.toNat, start := q.buffer,
       len := (q.capacity * BitVec.ofNat 64 ty.sizeof).toNat, live := [] }]
    { mem, queues := [q] }

/-! The queue while only pushes of one value have been made. -/
section Filling
variable {q : Queue} {k : Nat} {mem : Mem}

def filled (q : Queue) (mem : Mem) (bytes : List UInt8) : Nat → Mem
  | 0 => mem
  | i + 1 =>
    let before := filled q mem bytes i
    store before (word before (q.buffer + 8 * i)).toNat bytes

def slotOf (q : Queue) (mem : Mem) (bytes : List UInt8) (i : Nat) : Nat :=
  (word (filled q mem bytes i) (q.buffer + 8 * i)).toNat

def pushed (q : Queue) (i : Nat) : Queue := { q with widx := BitVec.ofNat 64 i }

theorem pushed_at (h : At q k 0 0) {i : Nat} (hi : i ≤ 2 ^ k) : At (pushed q i) k 0 i :=
  ⟨h.cap, h.mask, h.ridx, rfl, Nat.zero_le i, by omega⟩

theorem step_push (hbuffer : q.buffer ≠ 0) (h : At q k 0 0) {i : Nat} (hi : i < 2 ^ k)
    (v : ty.Value) :
    let slot := (word mem (q.buffer + 8 * i)).toNat
    step ty { mem, queues := [pushed q i] } (.push 0 v) =
      some (.constructed slot,
        { mem := store mem slot (ty.bytes v), queues := [pushed q (i + 1)] }) := by
  intro slot
  have hpush := (pushed_at h hi.le).push_eq hbuffer (by omega) mem (ty.bytes v)
  have hnext : { pushed q i with widx := (pushed q i).widx + 1#64 } = pushed q (i + 1) := by
    rw [pushed, pushed, BitVec.ofNat_add]
  rw [Nat.mod_eq_of_lt hi, hnext] at hpush
  rw [step, List.getElem?_cons_zero, Option.bind_some, hpush]
  rfl

theorem step_pop (hbuffer : q.buffer ≠ 0) (h : At q k 0 0) {i : Nat} (hi : i < 2 ^ k) :
    ∃ r, step ty { mem, queues := [pushed q (i + 1)] } (.pop 0) =
      some (.destroyed (word mem q.buffer).toNat, { mem, queues := [r] }) := by
  have hpop := (pushed_at h (Nat.succ_le_of_lt hi)).pop_eq hbuffer (Nat.succ_pos i) mem
  rw [Nat.zero_mod] at hpop
  rw [step, List.getElem?_cons_zero, Option.bind_some, hpop]
  exact ⟨_, rfl⟩

theorem conforms_push {c : Contents ty.Value} (hbuffer : q.buffer ≠ 0) (h : At q k 0 0) {i : Nat}
    (hi : i < 2 ^ k) {v : ty.Value} {ops : List (Op ty.Value)}
    (hconf : Conforms ty (.push 0 v :: ops) [c] { mem, queues := [pushed q i] }) :
    let slot := (word mem (q.buffer + 8 * i)).toNat
    (c.start ≤ slot ∧ slot + ty.sizeof ≤ c.start + c.len) ∧
      (∀ e ∈ c.live, e.1 + ty.sizeof ≤ slot ∨ slot + ty.sizeof ≤ e.1) ∧
      Conforms ty ops [{ c with live := c.live ++ [(slot, v)] }]
        { mem := store mem slot (ty.bytes v), queues := [pushed q (i + 1)] } := by
  obtain ⟨cs, hallowed, hrest⟩ := hconf _ _ (step_push hbuffer h hi v)
  obtain ⟨d, hd, hinside, hown, rfl⟩ := hallowed.constructed_inv
  obtain rfl := Option.some.inj hd
  exact ⟨hinside, hown, hrest⟩

theorem conforms_pop {c : Contents ty.Value} (hbuffer : q.buffer ≠ 0) (h : At q k 0 0) {i : Nat}
    (hi : i < 2 ^ k)
    (hconf : Conforms ty [.pop 0] [c] { mem, queues := [pushed q (i + 1)] }) :
    (c.live.map (·.1)).head? = some (word mem q.buffer).toNat := by
  obtain ⟨r, hpop⟩ := step_pop hbuffer h hi
  obtain ⟨cs, hallowed, -⟩ := hconf _ _ hpop
  obtain ⟨d, v, rest, hd, holdest⟩ := hallowed.destroyed_inv
  obtain rfl := Option.some.inj hd
  rw [holdest]
  rfl

theorem conforms_pushes {c : Contents ty.Value} (hbuffer : q.buffer ≠ 0) (h : At q k 0 0)
    (hlive : c.live = []) (v : ty.Value) {n : Nat} (hn : n ≤ 2 ^ k) {ops : List (Op ty.Value)}
    (hconf : Conforms ty (List.replicate n (.push 0 v) ++ ops) [c] { mem, queues := [q] }) :
    let slot := slotOf q mem (ty.bytes v)
    (∀ i < n, c.start ≤ slot i ∧ slot i + ty.sizeof ≤ c.start + c.len) ∧
      (∀ i < n, ∀ j < i, slot j + ty.sizeof ≤ slot i ∨ slot i + ty.sizeof ≤ slot j) ∧
      Conforms ty ops [{ c with live := (List.range n).map fun i => (slot i, v) }]
        { mem := filled q mem (ty.bytes v) n, queues := [pushed q n] } := by
  intro slot
  induction n generalizing ops with
  | zero =>
    have hq : pushed q 0 = q := by rw [pushed, ← h.widx]
    refine ⟨nofun, nofun, ?_⟩
    rw [hq]
    cases c
    cases hlive
    exact hconf
  | succ n ih =>
    rw [List.replicate_succ', List.append_assoc] at hconf
    obtain ⟨hin, hapart, hrest⟩ := ih (by omega) hconf
    obtain ⟨hinside, hown, hrest⟩ := conforms_push hbuffer h (by omega) hrest
    refine ⟨?_, ?_, ?_⟩
    · intro i hi
      rcases Nat.lt_succ_iff_lt_or_eq.mp hi with hi | rfl
      · exact hin i hi
      · exact hinside
    · intro i hi j hj
      rcases Nat.lt_succ_iff_lt_or_eq.mp hi with hi | rfl
      · exact hapart i hi j hj
      · exact hown (slot j, v) (List.mem_map.mpr ⟨j, List.mem_range.mpr hj, rfl⟩)
    · rw [List.range_succ, List.map_append]
      exact hrest

end Filling

theorem exists_slot_eq_buffer {q : Queue} {k : Nat} {mem : Mem} (hbuffer : q.buffer ≠ 0)
    (h : At q k 0 0) (hfifo : BoundedFifo ty q mem) (v : ty.Value) :
    ∃ i < 2 ^ k, slotOf q mem (ty.bytes v) i = q.buffer := by
  have hconf := hfifo (List.replicate (2 ^ k) (.push 0 v) ++ [])
  obtain ⟨hin, hapart, -⟩ := conforms_pushes hbuffer h rfl v (Nat.le_refl _) hconf
  apply Intervals.exists_eq_start _ ty.sizeof_pos (Nat.two_pow_pos k) hin hapart
  -- the size asked for is the product modulo `2 ^ 64`
  rw [BitVec.toNat_mul, h.cap, BitVec.toNat_ofNat]
  exact (Nat.mod_le _ _).trans (Nat.mul_le_mul_left _ (Nat.mod_le _ _))

/-- Once an object stands at the start of the buffer, `pop` reads an address from that object. -/
theorem word_eq_oldest {q : Queue} {k : Nat} {mem : Mem} (hbuffer : q.buffer ≠ 0)
    (h : At q k 0 0) (hfifo : BoundedFifo ty q mem) (u v : ty.Value) {i : Nat} (hi : i < 2 ^ k)
    (hslot : slotOf q mem (ty.bytes u) i = q.buffer) :
    some (word (store (filled q mem (ty.bytes u) i) q.buffer (ty.bytes v)) q.buffer).toNat
      = ((List.range (i + 1)).map (slotOf q mem (ty.bytes u))).head? := by
  have hconf := hfifo (List.replicate i (.push 0 u) ++ [.push 0 v, .pop 0])
  obtain ⟨-, -, hrest⟩ := conforms_pushes hbuffer h rfl u hi.le hconf
  obtain ⟨-, -, hrest⟩ := conforms_push hbuffer h hi hrest
  have hpop := conforms_pop hbuffer h hi hrest
  have hstart := hslot
  rw [slotOf] at hstart
  rw [List.map_append, List.map_map, hstart] at hpop
  rw [← hpop, List.range_succ, List.map_append, List.map_singleton, List.map_singleton, hslot]
  rfl

theorem take_eight {m : Mem} {a : Nat} {bs : List UInt8} :
    (load (store m a bs) a 8).take bs.length = bs.take 8 := by
  have h := load_store m a bs
  rcases Nat.le_total bs.length 8 with hle | hle
  · rw [load_take _ _ hle, h, List.take_of_length_le hle]
  · rw [List.take_of_length_le (by simpa using hle), ← load_take _ _ hle, h]

/-- No created queue is a bounded queue of a type with values told apart by their first eight
bytes: the object at the start of the buffer overwrites the address of the first slot. -/
theorem not_boundedFifo {q : Queue} {k : Nat} (hat : At q k 0 0) (hbuffer : q.buffer ≠ 0)
    (hvalues : ∃ u v, (ty.bytes u).take 8 ≠ (ty.bytes v).take 8) (mem : Mem) :
    ¬ BoundedFifo ty q mem := by
  intro hfifo
  obtain ⟨u, v, hne⟩ := hvalues
  obtain ⟨i, hi, hslot⟩ := exists_slot_eq_buffer hbuffer hat hfifo u
  have hu := word_eq_oldest hbuffer hat hfifo u u hi hslot
  have hv := word_eq_oldest hbuffer hat hfifo u v hi hslot
  have hword := load_eq_of_word_eq (BitVec.eq_of_toNat_eq (Option.some.inj (hu.trans hv.symm)))
  apply hne
  calc (ty.bytes u).take 8
      = (load (store (filled q mem (ty.bytes u) i) q.buffer (ty.bytes u)) q.buffer 8).take
          ty.sizeof := by rw [← ty.bytes_length u, take_eight]
    _ = (load (store (filled q mem (ty.bytes u) i) q.buffer (ty.bytes v)) q.buffer 8).take
          ty.sizeof := by rw [hword]
    _ = (ty.bytes v).take 8 := by rw [← ty.bytes_length v, take_eight]

/-! A type without values. -/

structure Idle (cs : List (Contents ty.Value)) (s : State) : Prop where
  length : cs.length = s.queues.length
  live : ∀ c ∈ cs, c.live = []
  empty : ∀ q ∈ s.queues, q.empty = true

theorem Idle.contents {cs : List (Contents ty.Value)} {s : State} {i : Nat} {q : Queue}
    (h : Idle cs s) (hq : s.queues[i]? = some q) :
    q.empty = true ∧ ∃ c, cs[i]? = some c ∧ c.live = [] := by
  obtain ⟨hi, -⟩ := List.getElem?_eq_some_iff.mp hq
  rw [← h.length] at hi
  exact ⟨h.empty q (List.mem_of_getElem? hq), cs[i], List.getElem?_eq_getElem hi,
    h.live _ (List.getElem_mem hi)⟩

theorem Idle.set {cs : List (Contents ty.Value)} {s : State} (h : Idle cs s) (i : Nat)
    {c : Contents ty.Value} (hc : c.live = []) {q : Queue} (hq : q.empty = true) :
    Idle (cs.set i c) { s with queues := s.queues.set i q } := by
  refine ⟨by simp [h.length], fun d hd => ?_, fun r hr => ?_⟩
  · obtain hd | rfl := List.mem_or_eq_of_mem_set hd
    · exact h.live d hd
    · exact hc
  · obtain hr | rfl := List.mem_or_eq_of_mem_set hr
    · exact h.empty r hr
    · exact hq

theorem clear_empty {q r : Queue} {mem : Mem} {slots : List Nat} {freed : Option Nat}
    (hempty : q.empty = true) (h : q.clear mem = some ((slots, freed), r)) : slots = [] := by
  have hsize : q.size.toNat = 0 := congrArg BitVec.toNat (beq_iff_eq.mp hempty)
  unfold Queue.clear at h
  rw [hsize, Queue.popAll] at h
  split at h <;> cases h <;> rfl

theorem idle_conforms [IsEmpty ty.Value] (ops : List (Op ty.Value))
    {cs : List (Contents ty.Value)} {s : State} (h : Idle cs s) : Conforms ty ops cs s := by
  induction ops generalizing cs s with
  | nil => trivial
  | cons op ops ih =>
    intro out t hstep
    cases op with
    | push i v => exact isEmptyElim v
    | pop i =>
      obtain ⟨q, hq, hstep⟩ := Option.bind_eq_some_iff.mp hstep
      obtain ⟨hempty, c, hc, hlive⟩ := h.contents hq
      rw [Queue.pop, hempty, if_pos rfl] at hstep
      split at hstep
      · cases hstep
      · cases hstep
        have hset := h.set i hlive hempty
        have hsame : cs.set i c = cs := by
          obtain ⟨hi, rfl⟩ := List.getElem?_eq_some_iff.mp hc
          exact List.set_getElem_self hi
        rw [hsame] at hset
        exact ⟨cs, .nothing hc hlive, ih hset⟩
    | front i =>
      obtain ⟨q, hq, hstep⟩ := Option.bind_eq_some_iff.mp hstep
      rw [Queue.front, (h.contents hq).1, if_pos rfl] at hstep
      cases hstep
    | moveConstruct i =>
      obtain ⟨q, hq, hstep⟩ := Option.map_eq_some_iff.mp hstep
      obtain ⟨hempty, c, hc, hlive⟩ := h.contents hq
      cases hstep
      obtain ⟨hlength, hall, hqueues⟩ := h.set i (rfl : Contents.movedFrom.live = [])
        (by decide : Queue.movedFrom.empty = true)
      refine ⟨_, .moveConstructed hc, ih ⟨by simpa using hlength, fun d hd => ?_, fun r hr => ?_⟩⟩
      · obtain hd | hd := List.mem_append.mp hd
        · exact hall d hd
        · exact List.mem_singleton.mp hd ▸ hlive
      · obtain hr | hr := List.mem_append.mp hr
        · exact hqueues r hr
        · exact List.mem_singleton.mp hr ▸ hempty
    | moveAssign i j =>
      obtain ⟨q, hq, hmove⟩ := Option.bind_eq_some_iff.mp hstep
      obtain ⟨other, hother, hmove⟩ := Option.bind_eq_some_iff.mp hmove
      obtain ⟨hempty, c, hc, hlive⟩ := h.contents hq
      obtain ⟨hempty', d, hd, hlive'⟩ := h.contents hother
      split at hmove
      · rename_i hij
        cases hmove
        exact ⟨cs, hij ▸ .selfAssigned, ih h⟩
      · rename_i hne
        obtain ⟨⟨⟨slots, freed⟩, new, left⟩, hassign, heq⟩ := Option.map_eq_some_iff.mp hmove
        obtain ⟨⟨cleared, r⟩, hclear, hmoved⟩ := Option.map_eq_some_iff.mp hassign
        cases hmoved
        cases heq
        obtain rfl := clear_empty hempty hclear
        have hallowed : Allowed ty cs (.moveAssign i j) (.assigned (c.live.map (·.1)) freed)
            ((cs.set i d).set j .movedFrom) := .assigned hne hc hd
        rw [hlive] at hallowed
        exact ⟨_, hallowed, ih ((h.set i hlive' hempty').set j rfl (by decide))⟩

theorem zeroed_escapes {q : Queue} {k : Nat} (hat : At q k 0 0) (hbuffer : q.buffer ≠ 0)
    (v : ty.Value) : ¬ BoundedFifo ty q fun _ => 0 := by
  intro hfifo
  have hconf := hfifo [.push 0 v]
  have hq : pushed q 0 = q := by rw [pushed, ← hat.widx]
  rw [← hq] at hconf
  obtain ⟨hle, -⟩ := (conforms_push hbuffer hat (Nat.two_pow_pos k) hconf).1
  have hload : load (fun _ => 0) (q.buffer + 8 * 0) 8 = List.replicate 8 0 := by simp [load]
  rw [word_toNat, hload] at hle
  exact hbuffer (Nat.le_zero.mp hle)

/-- The constructor is defined on every request from 2 to `2 ^ 63`. Whatever the allocator, what
it makes is a bounded queue over all contents of the memory only when there is never anything to
push, and over none when the first eight bytes tell two values apart. -/
theorem created_boundedFifo_iff {capacity : BitVec 64} (hlo : 2 ≤ capacity.toNat)
    (hhi : capacity.toNat ≤ 2 ^ 63) {allocator : BitVec 64 → Nat} (halloc : ∀ n, allocator n ≠ 0) :
    ∃ q, create ty.sizeof allocator capacity = some q ∧
      ((∀ mem, BoundedFifo ty q mem) ↔ IsEmpty ty.Value) ∧
      ((∃ u v, (ty.bytes u).take 8 ≠ (ty.bytes v).take 8) → ∀ mem, ¬ BoundedFifo ty q mem) := by
  obtain ⟨k, hk, -⟩ := Utility.nextPow2_eq hlo hhi
  have hcreate : ∃ q, create ty.sizeof allocator capacity = some q ∧ q.buffer ≠ 0 :=
    ⟨_, by rw [create, hk, Option.map_some], halloc _⟩
  obtain ⟨q, hq, hbuffer⟩ := hcreate
  obtain ⟨k, hat⟩ := create_at hq
  refine ⟨q, hq, ⟨fun hall => ?_, fun hnone mem ops => ?_⟩, fun hvalues mem =>
    not_boundedFifo hat hbuffer hvalues mem⟩
  · rw [← not_nonempty_iff]
    intro hsome
    exact zeroed_escapes hat hbuffer hsome.some (hall _)
  · refine idle_conforms ops ⟨rfl, fun c hc => ?_, fun r hr => ?_⟩
    · rw [List.mem_singleton.mp hc]
    · rw [List.mem_singleton.mp hr, hat.empty_iff]

def byteType : ObjectType where
  Value := UInt8
  sizeof := 1
  bytes b := [b]
  bytes_length _ := rfl
  sizeof_pos := Nat.one_pos

theorem two_created_boundedFifo : ∃ q, create 1 (fun _ => 4096) 2 = some q ∧
    (¬ ∀ mem, BoundedFifo byteType q mem) ∧ ∀ mem, ¬ BoundedFifo byteType q mem := by
  have hvalues : ∃ u v, (byteType.bytes u).take 8 ≠ (byteType.bytes v).take 8 :=
    ⟨(0 : UInt8), (1 : UInt8), by decide⟩
  have halloc (n : BitVec 64) : (fun _ : BitVec 64 => 4096) n ≠ 0 := by simp
  have hlo : 2 ≤ (2 : BitVec 64).toNat := by decide
  obtain ⟨q, hq, hiff, hnone⟩ : ∃ q, create byteType.sizeof (fun _ => 4096) 2 = some q ∧
      ((∀ mem, BoundedFifo byteType q mem) ↔ IsEmpty byteType.Value) ∧ _ :=
    created_boundedFifo_iff hlo (by decide) halloc
  refine ⟨q, hq, fun hall => ?_, hnone hvalues⟩
  exact (hiff.mp hall).false (0 : UInt8)

def twoBytes : Queue := { capacity := 2, mask := 1, buffer := 4096, ridx := 0, widx := 0 }

theorem zeroed_not_boundedFifo :
    create 1 (fun _ => 4096) 2 = some twoBytes ∧ ¬ BoundedFifo byteType twoBytes fun _ => 0 := by
  refine ⟨by decide, fun hfifo => ?_⟩
  have hat : At twoBytes 1 0 0 := ⟨rfl, rfl, rfl, rfl, Nat.le_refl 0, by decide⟩
  have hconf := hfifo [.push 0 (0 : UInt8)]
  have hi : 0 < 2 ^ 1 := by decide
  have hin := (conforms_push (by decide) hat hi hconf).1
  have hzero : (word (fun _ => 0) (twoBytes.buffer + 8 * 0)).toNat = 0 := by decide
  rw [hzero] at hin
  exact absurd hin.1 (by decide)

end Flyzero.CircularQueue
