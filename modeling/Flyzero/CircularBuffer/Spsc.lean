import Flyzero.CircularBuffer.Ring
import Flyzero.Lib.Runs

/-! One producer and one consumer on a shared ring without a lock. Every load and
store of a cursor or of a data byte is a step of its own. -/
namespace Flyzero.CircularBuffer.Spsc

inductive Side where
  | producer | consumer
  deriving DecidableEq

/-- Where a side stands. C does not order the two loads of `readable_size`. -/
inductive Pc where
  | idle
  | get (w r : Option Word)
  | locate (size : Word)
  | hold (piece : Piece)
  | move (size : Word) (w r : Option Word)
  | load (size : Word)
  | store (size old : Word)

inductive Event where
  | callGet (side : Side)
  | callMove (side : Side) (size : Word)
  | loadW (side : Side)
  | loadR (side : Side)
  | compute (side : Side)
  | loadOwn (side : Side)
  | storeOwn (side : Side)
  | write (j : Nat) (b : UInt8)
  | read (j : Nat)

/-- The shared buffer and both sides, with the history: the bytes pushed and popped, the
last byte the producer wrote for each stream position, and the reads with their positions. -/
structure Machine where
  buffer : Buffer
  producer : Pc
  consumer : Pc
  pushed : List UInt8
  popped : List UInt8
  wrote : Nat → Option UInt8
  reads : List (Nat × UInt8)

def start (cb : Buffer) : Machine :=
  { buffer := cb, producer := .idle, consumer := .idle, pushed := [], popped := [],
    wrote := fun _ => none, reads := [] }

def Machine.pc (s : Machine) : Side → Pc
  | .producer => s.producer
  | .consumer => s.consumer

def Machine.setPc (s : Machine) (side : Side) (pc : Pc) : Machine :=
  match side with
  | .producer => { s with producer := pc }
  | .consumer => { s with consumer := pc }

def available : Side → Header → Word
  | .producer => writableSize
  | .consumer => readableSize

def own : Side → Header → Word
  | .producer => Header.w
  | .consumer => Header.r

/-- `w += size` publishes the bytes in the memory after the old cursor, `r += size` gives
them back. -/
def Machine.advance (s : Machine) (side : Side) (size old : Word) : Machine :=
  let bytes := CircularBuffer.load s.buffer (bufferPos s.buffer old) size.toNat
  match side with
  | .producer =>
    { s with
      buffer.header.w := old + size
      pushed := s.pushed ++ bytes
      producer := .idle }
  | .consumer =>
    { s with
      buffer.header.r := old + size
      popped := s.popped ++ bytes
      consumer := .idle }

def step (s : Machine) : Event → Option Machine
  | .callGet side =>
    match s.pc side with
    | .idle | .hold _ => some (s.setPc side (.get none none))
    | _ => none
  | .callMove side size =>
    match s.pc side with
    | .idle | .hold _ => some (s.setPc side (.move size none none))
    | _ => none
  | .loadW side =>
    match s.pc side with
    | .get none r => some (s.setPc side (.get (some s.buffer.header.w) r))
    | .move size none r => some (s.setPc side (.move size (some s.buffer.header.w) r))
    | _ => none
  | .loadR side =>
    match s.pc side with
    | .get w none => some (s.setPc side (.get w (some s.buffer.header.r)))
    | .move size w none => some (s.setPc side (.move size w (some s.buffer.header.r)))
    | _ => none
  | .compute side =>
    match s.pc side with
    | .get (some w) (some r) =>
      some (s.setPc side (.locate (available side { s.buffer.header with w, r })))
    | .move size (some w) (some r) =>
      some (s.setPc side (.load (clamp size (available side { s.buffer.header with w, r }))))
    | _ => none
  | .loadOwn side =>
    match s.pc side with
    | .locate size =>
      let data := bufferPos s.buffer (own side s.buffer.header)
      some (s.setPc side (.hold { data, size }))
    | .load size => some (s.setPc side (.store size (own side s.buffer.header)))
    | _ => none
  | .storeOwn side =>
    match s.pc side with
    | .store size old => some (s.advance side size old)
    | _ => none
  | .write j b =>
    match s.producer with
    | .hold piece =>
      if j < piece.size.toNat then
        some { s with
          buffer := storeByte s.buffer (piece.data + BitVec.ofNat 64 j) b
          wrote := Function.update s.wrote (s.pushed.length + j) (some b) }
      else none
    | _ => none
  | .read j =>
    match s.consumer with
    | .hold piece =>
      if j < piece.size.toNat then
        let b := byteAt s.buffer (piece.data + BitVec.ofNat 64 j)
        some { s with reads := s.reads ++ [(s.popped.length + j, b)] }
      else none
    | _ => none

/-- What a side may rely on: it owns the positions from `pos` up to `limit`, and each cursor it
has loaded was right when it was loaded. -/
def Pc.Ok (pc : Pc) (data : Word) (pos limit : Nat) (okW okR : Word → Prop) : Prop :=
  match pc with
  | .idle => True
  | .get w r | .move _ w r => (∀ x ∈ w, okW x) ∧ ∀ x ∈ r, okR x
  | .locate size | .load size => pos + size.toNat ≤ limit
  | .hold piece => piece.data = data ∧ pos + piece.size.toNat ≤ limit
  | .store size old => old = BitVec.ofNat 64 pos ∧ pos + size.toNat ≤ limit

theorem Pc.Ok.mono {pc : Pc} {data : Word} {pos limit limit' : Nat}
    {okW okR okW' okR' : Word → Prop} (h : pc.Ok data pos limit okW okR)
    (hlimit : limit ≤ limit') (hw : ∀ x, okW x → okW' x) (hr : ∀ x, okR x → okR' x) :
    pc.Ok data pos limit' okW' okR' := by
  cases pc with
  | idle => trivial
  | get w r => exact ⟨fun x hx => hw x (h.1 x hx), fun x hx => hr x (h.2 x hx)⟩
  | move size w r => exact ⟨fun x hx => hw x (h.1 x hx), fun x hx => hr x (h.2 x hx)⟩
  | locate size => exact Nat.le_trans h hlimit
  | load size => exact Nat.le_trans h hlimit
  | hold piece => exact ⟨h.1, Nat.le_trans h.2 hlimit⟩
  | store size old => exact ⟨h.1, Nat.le_trans h.2 hlimit⟩

def SeenW (lo hi : Nat) (x : Word) : Prop := ∃ p, lo ≤ p ∧ p ≤ hi ∧ x = BitVec.ofNat 64 p

def SeenR (n lo hi : Nat) (x : Word) : Prop := ∃ p, p ≤ lo ∧ hi ≤ p + n ∧ x = BitVec.ofNat 64 p

def ProducerOk (pc : Pc) (cb : Buffer) (k lo hi : Nat) : Prop :=
  pc.Ok (bufferPos cb (BitVec.ofNat 64 hi)) hi (lo + 2 ^ k) (· = BitVec.ofNat 64 hi)
    (SeenR (2 ^ k) lo hi)

def ConsumerOk (pc : Pc) (cb : Buffer) (lo hi : Nat) : Prop :=
  pc.Ok (bufferPos cb (BitVec.ofNat 64 lo)) lo hi (SeenW lo hi) (· = BitVec.ofNat 64 lo)

/-- `lo` bytes have been popped and `hi` pushed; a byte the producer wrote stays in its cell
until it is popped. -/
structure Inv (k : Nat) (s : Machine) : Prop where
  cursors : At s.buffer k s.popped.length s.pushed.length
  producer : ProducerOk s.producer s.buffer k s.popped.length s.pushed.length
  consumer : ConsumerOk s.consumer s.buffer s.popped.length s.pushed.length
  stream : s.popped ++ contents s.buffer = s.pushed
  wrote : ∀ q v, s.wrote q = some v → q < s.popped.length + 2 ^ k ∧
    (q < s.pushed.length → s.pushed[q]? = some v) ∧
    (s.popped.length ≤ q → s.buffer.ring (q % 2 ^ k) = v)
  reads : ∀ e ∈ s.reads, s.pushed[e.1]? = some e.2

inductive Moves (cb : Buffer) (side : Side) : Pc → Pc → Prop where
  | callGet {pc} : Moves cb side pc (.get none none)
  | callMove {pc size} : Moves cb side pc (.move size none none)
  | getW {r} : Moves cb side (.get none r) (.get (some cb.header.w) r)
  | getR {w} : Moves cb side (.get w none) (.get w (some cb.header.r))
  | moveW {size r} : Moves cb side (.move size none r) (.move size (some cb.header.w) r)
  | moveR {size w} : Moves cb side (.move size w none) (.move size w (some cb.header.r))
  | size {w r} : Moves cb side (.get (some w) (some r))
      (.locate (available side { cb.header with w, r }))
  | clamp {size w r} : Moves cb side (.move size (some w) (some r))
      (.load (clamp size (available side { cb.header with w, r })))
  | locate {size} : Moves cb side (.locate size)
      (.hold { data := bufferPos cb (own side cb.header), size })
  | load {size} : Moves cb side (.load size) (.store size (own side cb.header))

theorem step_cases {s t : Machine} {e : Event} (h : step s e = some t) :
    (∃ side pc, Moves s.buffer side (s.pc side) pc ∧ t = s.setPc side pc) ∨
    (∃ side size old, s.pc side = .store size old ∧ t = s.advance side size old) ∨
    (∃ piece j b, s.producer = .hold piece ∧ j < piece.size.toNat ∧ t = { s with
      buffer := storeByte s.buffer (piece.data + BitVec.ofNat 64 j) b
      wrote := Function.update s.wrote (s.pushed.length + j) (some b) }) ∨
    (∃ piece j, s.consumer = .hold piece ∧ j < piece.size.toNat ∧ t = { s with
      reads := s.reads ++
        [(s.popped.length + j, byteAt s.buffer (piece.data + BitVec.ofNat 64 j))] }) := by
  cases e with
  | callGet side =>
    simp only [step] at h
    split at h <;> cases h
    all_goals exact .inl ⟨side, _, .callGet, rfl⟩
  | callMove side size =>
    simp only [step] at h
    split at h <;> cases h
    all_goals exact .inl ⟨side, _, .callMove, rfl⟩
  | loadW side =>
    simp only [step] at h
    split at h <;> cases h
    all_goals rename_i hpc
    · exact .inl ⟨side, _, hpc ▸ .getW, rfl⟩
    · exact .inl ⟨side, _, hpc ▸ .moveW, rfl⟩
  | loadR side =>
    simp only [step] at h
    split at h <;> cases h
    all_goals rename_i hpc
    · exact .inl ⟨side, _, hpc ▸ .getR, rfl⟩
    · exact .inl ⟨side, _, hpc ▸ .moveR, rfl⟩
  | compute side =>
    simp only [step] at h
    split at h <;> cases h
    all_goals rename_i hpc
    · exact .inl ⟨side, _, hpc ▸ .size, rfl⟩
    · exact .inl ⟨side, _, hpc ▸ .clamp, rfl⟩
  | loadOwn side =>
    simp only [step] at h
    split at h <;> cases h
    all_goals rename_i hpc
    · exact .inl ⟨side, _, hpc ▸ .locate, rfl⟩
    · exact .inl ⟨side, _, hpc ▸ .load, rfl⟩
  | storeOwn side =>
    simp only [step] at h
    split at h <;> cases h
    rename_i hpc
    exact .inr (.inl ⟨side, _, _, hpc, rfl⟩)
  | write j b =>
    simp only [step] at h
    split at h
    · rename_i piece hpc
      obtain ⟨hj, h⟩ := Option.ite_none_right_eq_some.mp h
      cases h
      exact .inr (.inr (.inl ⟨piece, j, b, hpc, hj, rfl⟩))
    · cases h
  | read j =>
    simp only [step] at h
    split at h
    · rename_i piece hpc
      obtain ⟨hj, h⟩ := Option.ite_none_right_eq_some.mp h
      cases h
      exact .inr (.inr (.inr ⟨piece, j, hpc, hj, rfl⟩))
    · cases h

theorem Moves.ok {cb : Buffer} {side : Side} {pc pc' : Pc} {pos limit : Nat}
    {okW okR : Word → Prop} (hm : Moves cb side pc pc')
    (hown : own side cb.header = BitVec.ofNat 64 pos) (hw : okW cb.header.w)
    (hr : okR cb.header.r)
    (hsize : ∀ w r, okW w → okR r →
      pos + (available side { cb.header with w, r }).toNat ≤ limit)
    (h : pc.Ok (bufferPos cb (BitVec.ofNat 64 pos)) pos limit okW okR) :
    pc'.Ok (bufferPos cb (BitVec.ofNat 64 pos)) pos limit okW okR := by
  cases hm with
  | callGet => exact ⟨by simp, by simp⟩
  | callMove => exact ⟨by simp, by simp⟩
  | getW | moveW => exact ⟨by simpa using hw, h.2⟩
  | getR | moveR => exact ⟨h.1, by simpa using hr⟩
  | @size w r => exact hsize w r (h.1 w rfl) (h.2 r rfl)
  | @clamp n w r =>
    have := hsize w r (h.1 w rfl) (h.2 r rfl)
    change pos + (CircularBuffer.clamp n _).toNat ≤ limit
    rw [clamp_toNat]
    omega
  | locate => exact ⟨by rw [hown], h⟩
  | load => exact ⟨hown, h⟩

section Preservation
variable {k : Nat} {s : Machine}

theorem SeenR.writable {cb : Buffer} {lo hi : Nat} {r : Word} (hr : SeenR (2 ^ k) lo hi r)
    (h : At cb k lo hi) :
    hi + (writableSize { cb.header with w := BitVec.ofNat 64 hi, r }).toNat ≤ lo + 2 ^ k := by
  obtain ⟨p, hp, hroom, rfl⟩ := hr
  have hle := h.le
  have hold : At { cb with header.w := BitVec.ofNat 64 hi, header.r := BitVec.ofNat 64 p } k p hi :=
    ⟨h.cap, rfl, rfl, by omega, hroom⟩
  have hsize : (writableSize { cb.header with w := BitVec.ofNat 64 hi, r := _ }).toNat = _ :=
    hold.writableSize_toNat
  omega

theorem SeenW.readable {cb : Buffer} {lo hi : Nat} {w : Word} (hw : SeenW lo hi w)
    (h : At cb k lo hi) :
    lo + (readableSize { cb.header with w, r := BitVec.ofNat 64 lo }).toNat ≤ hi := by
  obtain ⟨p, hlo, hp, rfl⟩ := hw
  have hroom := h.room
  have hold : At { cb with header.w := BitVec.ofNat 64 p, header.r := BitVec.ofNat 64 lo } k lo p :=
    ⟨h.cap, rfl, rfl, hlo, by omega⟩
  have hsize : (readableSize { cb.header with w := _, r := BitVec.ofNat 64 lo }).toNat = _ :=
    hold.readableSize_toNat
  omega

theorem Inv.moves (h : Inv k s) {side : Side} {pc : Pc}
    (hm : Moves s.buffer side (s.pc side) pc) : Inv k (s.setPc side pc) := by
  have hat := h.cursors
  cases side with
  | producer =>
    refine ⟨hat, ?_, h.consumer, h.stream, h.wrote, h.reads⟩
    refine hm.ok hat.w hat.w ⟨_, le_rfl, hat.room, hat.r⟩ ?_ h.producer
    rintro w r rfl hr
    exact hr.writable hat
  | consumer =>
    refine ⟨hat, h.producer, ?_, h.stream, h.wrote, h.reads⟩
    refine hm.ok hat.r ⟨_, hat.le, le_rfl, hat.w⟩ hat.r ?_ h.consumer
    rintro w r hw rfl
    exact hw.readable hat

theorem Inv.getElem?_pushed (h : Inv k s) {q : Nat} (hlo : s.popped.length ≤ q)
    (hhi : q < s.pushed.length) : s.pushed[q]? = some (s.buffer.ring (q % 2 ^ k)) := by
  rw [← h.stream, List.getElem?_append_right hlo, h.cursors.contents_eq,
    List.getElem?_eq_getElem (by simpa using by omega), Window.cells_getElem,
    Nat.add_sub_cancel' hlo]

theorem Inv.producer_store (h : Inv k s) {size old : Word} (hpc : s.producer = .store size old) :
    old = BitVec.ofNat 64 s.pushed.length ∧
      s.pushed.length + size.toNat ≤ s.popped.length + 2 ^ k := by
  have hok := h.producer
  rwa [hpc] at hok

theorem Inv.consumer_store (h : Inv k s) {size old : Word} (hpc : s.consumer = .store size old) :
    old = BitVec.ofNat 64 s.popped.length ∧
      s.popped.length + size.toNat ≤ s.pushed.length := by
  have hok := h.consumer
  rwa [hpc] at hok

theorem Inv.producer_hold (h : Inv k s) {piece : Piece} (hpc : s.producer = .hold piece) :
    piece.data = bufferPos s.buffer (BitVec.ofNat 64 s.pushed.length) ∧
      s.pushed.length + piece.size.toNat ≤ s.popped.length + 2 ^ k := by
  have hok := h.producer
  rwa [hpc] at hok

theorem Inv.consumer_hold (h : Inv k s) {piece : Piece} (hpc : s.consumer = .hold piece) :
    piece.data = bufferPos s.buffer (BitVec.ofNat 64 s.popped.length) ∧
      s.popped.length + piece.size.toNat ≤ s.pushed.length := by
  have hok := h.consumer
  rwa [hpc] at hok

theorem Inv.push (h : Inv k s) {size old : Word} (hpc : s.producer = .store size old) :
    Inv k (s.advance .producer size old) := by
  have hat := h.cursors
  have hroom := hat.room
  have hle := hat.le
  obtain ⟨rfl, hfit⟩ := h.producer_store hpc
  let bytes := Window.cells s.buffer.ring (2 ^ k) s.pushed.length size.toNat
  have hbytes : CircularBuffer.load s.buffer
      (bufferPos s.buffer (BitVec.ofNat 64 s.pushed.length)) size.toNat = bytes :=
    load_bufferPos hat.cap _ (by omega)
  have hlen : (s.pushed ++ bytes).length = s.pushed.length + size.toNat := by simp [bytes]
  let t := s.advance .producer size (BitVec.ofNat 64 s.pushed.length)
  have hpushed : t.pushed = s.pushed ++ bytes := congrArg (s.pushed ++ ·) hbytes
  have hat' : At t.buffer k s.popped.length (s.pushed.length + size.toNat) :=
    ⟨hat.cap, hat.r, Window.cursor_add .., by omega, hfit⟩
  constructor
  · rw [hpushed, hlen]
    exact hat'
  · trivial
  · rw [hpushed, hlen]
    refine h.consumer.mono (by omega) ?_ fun _ => id
    rintro x ⟨p, hlo, hhi, rfl⟩
    exact ⟨p, hlo, by omega, rfl⟩
  · calc
      s.popped ++ contents t.buffer
          = s.popped ++ (contents s.buffer ++ bytes) := by
            rw [hat'.contents_eq, hat.contents_eq,
              show s.pushed.length + size.toNat - s.popped.length
                = s.pushed.length - s.popped.length + size.toNat by omega,
              Window.cells_add, Nat.add_sub_cancel' hle]
            rfl
      _ = s.pushed ++ bytes := by rw [← List.append_assoc, h.stream]
      _ = t.pushed := hpushed.symm
  · intro q v hq
    obtain ⟨hbound, hpub, hcell⟩ := h.wrote q v hq
    refine ⟨hbound, ?_, hcell⟩
    rw [hpushed, hlen]
    intro hlt
    rcases Nat.lt_or_ge q s.pushed.length with hold | hnew
    · rw [List.getElem?_append_left hold]
      exact hpub hold
    · -- the byte is published now, from the cell it has been waiting in
      rw [List.getElem?_append_right hnew, List.getElem?_eq_getElem (by simp [bytes]; omega),
        Window.cells_getElem, Nat.add_sub_cancel' hnew, hcell (by omega)]
  · intro e he
    have hold := h.reads e he
    rw [hpushed, List.getElem?_append_left (List.getElem?_eq_some_iff.mp hold).1]
    exact hold

theorem Inv.pop (h : Inv k s) {size old : Word} (hpc : s.consumer = .store size old) :
    Inv k (s.advance .consumer size old) := by
  have hat := h.cursors
  have hroom := hat.room
  have hle := hat.le
  obtain ⟨rfl, hfit⟩ := h.consumer_store hpc
  let bytes := Window.cells s.buffer.ring (2 ^ k) s.popped.length size.toNat
  have hbytes : CircularBuffer.load s.buffer
      (bufferPos s.buffer (BitVec.ofNat 64 s.popped.length)) size.toNat = bytes :=
    load_bufferPos hat.cap _ (by omega)
  have hlen : (s.popped ++ bytes).length = s.popped.length + size.toNat := by simp [bytes]
  let t := s.advance .consumer size (BitVec.ofNat 64 s.popped.length)
  have hpopped : t.popped = s.popped ++ bytes := congrArg (s.popped ++ ·) hbytes
  have hat' : At t.buffer k (s.popped.length + size.toNat) s.pushed.length :=
    ⟨hat.cap, Window.cursor_add .., hat.w, hfit, by omega⟩
  constructor
  · rw [hpopped, hlen]
    exact hat'
  · rw [hpopped, hlen]
    refine h.producer.mono (by omega) (fun _ => id) ?_
    rintro x ⟨p, hlo, hhi, rfl⟩
    exact ⟨p, by omega, hhi, rfl⟩
  · trivial
  · calc
      t.popped ++ contents t.buffer
          = s.popped ++ (bytes ++ contents t.buffer) := by rw [hpopped, List.append_assoc]
      _ = s.popped ++ contents s.buffer := by
            rw [hat'.contents_eq, hat.contents_eq,
              show s.pushed.length - s.popped.length
                = size.toNat + (s.pushed.length - (s.popped.length + size.toNat)) by omega,
              Window.cells_add]
            rfl
      _ = s.pushed := h.stream
  · intro q v hq
    obtain ⟨hbound, hpub, hcell⟩ := h.wrote q v hq
    rw [hpopped, hlen]
    exact ⟨by omega, hpub, fun hlo => hcell (by omega)⟩
  · exact h.reads

theorem Inv.write (h : Inv k s) {piece : Piece} (hpc : s.producer = .hold piece) {j : Nat}
    (hj : j < piece.size.toNat) (b : UInt8) :
    Inv k { s with
      buffer := storeByte s.buffer (piece.data + BitVec.ofNat 64 j) b
      wrote := Function.update s.wrote (s.pushed.length + j) (some b) } := by
  have hat := h.cursors
  have hle := hat.le
  obtain ⟨hdata, hfit⟩ := h.producer_hold hpc
  have hring : (storeByte s.buffer (piece.data + BitVec.ofNat 64 j) b).ring
      = Window.fill s.buffer.ring (2 ^ k) (s.pushed.length + j) [b] := by
    rw [storeByte, hdata, ringOffset_bufferPos hat.cap _ (by omega)]
    rfl
  have hat' : At (storeByte s.buffer (piece.data + BitVec.ofNat 64 j) b) k s.popped.length
      s.pushed.length := hat.store _ [b]
  refine ⟨hat', h.producer, h.consumer, ?_, ?_, h.reads⟩
  · change s.popped ++ contents (storeByte _ _ _) = s.pushed
    have hahead : s.popped.length + (s.pushed.length - s.popped.length)
        ≤ s.pushed.length + j := by omega
    have hlap : s.pushed.length + j + [b].length ≤ s.popped.length + 2 ^ k := by
      rw [List.length_singleton]
      omega
    rw [hat'.contents_eq, hring, Window.cells_fill_ahead _ _ hahead hlap, ← hat.contents_eq,
      h.stream]
  · intro q v hq
    change Function.update s.wrote _ _ q = some v at hq
    change q < s.popped.length + 2 ^ k ∧ (q < s.pushed.length → s.pushed[q]? = some v) ∧
      (s.popped.length ≤ q → (storeByte _ _ _).ring (q % 2 ^ k) = v)
    rw [hring]
    by_cases hqj : q = s.pushed.length + j
    · subst hqj
      have hv : b = v := by simpa using hq
      refine ⟨by omega, fun hlt => absurd hlt (by omega), fun _ => ?_⟩
      rw [← hv]
      exact Function.update_self ..
    · obtain ⟨hbound, hpub, hcell⟩ := h.wrote q v (by rwa [Function.update_of_ne hqj] at hq)
      refine ⟨hbound, hpub, fun hlo => ?_⟩
      rw [Window.fill_of_ne _ _ _ _ _ ?_]
      · exact hcell hlo
      · intro i hi he
        obtain rfl : i = 0 := by simpa using hi
        exact hqj (Window.slot_inj (by omega) (by omega) he.symm)

theorem Inv.read (h : Inv k s) {piece : Piece} (hpc : s.consumer = .hold piece) {j : Nat}
    (hj : j < piece.size.toNat) :
    Inv k { s with
      reads := s.reads ++
        [(s.popped.length + j, byteAt s.buffer (piece.data + BitVec.ofNat 64 j))] } := by
  have hat := h.cursors
  have hroom := hat.room
  obtain ⟨hdata, hfit⟩ := h.consumer_hold hpc
  refine ⟨hat, h.producer, h.consumer, h.stream, h.wrote, ?_⟩
  intro e he
  rcases List.mem_append.mp he with he | he
  · exact h.reads e he
  · obtain rfl := List.mem_singleton.mp he
    rw [h.getElem?_pushed (by omega) (by omega), byteAt, hdata,
      ringOffset_bufferPos hat.cap _ (by omega)]

theorem step_inv (s : Machine) (e : Event) (t : Machine) (hstep : step s e = some t)
    (h : Inv k s) : Inv k t := by
  obtain ⟨side, pc, hm, rfl⟩ | ⟨side, size, old, hpc, rfl⟩ | ⟨piece, j, b, hpc, hj, rfl⟩ |
    ⟨piece, j, hpc, hj, rfl⟩ := step_cases hstep
  · exact h.moves hm
  · cases side with
    | producer => exact h.push hpc
    | consumer => exact h.pop hpc
  · exact h.write hpc hj b
  · exact h.read hpc hj

end Preservation

theorem start_inv {cb : Buffer} {k : Nat} (h : At cb k 0 0) : Inv k (start cb) where
  cursors := h
  producer := trivial
  consumer := trivial
  stream := by rw [start, h.contents_eq]; rfl
  wrote := by simp [start]
  reads := by simp [start]

/-- What one state shows of a lock-free hand-over. -/
structure Safe (s : Machine) : Prop where
  bounded : (s.buffer.header.w - s.buffer.header.r).toNat ≤ s.buffer.header.capacity.toNat
  /-- The piece the producer holds shares no byte with the unread bytes. -/
  exclusive : ∀ piece, s.producer = .hold piece → ∀ j < piece.size.toNat,
    ∀ i < (getReadable s.buffer).size.toNat,
      ringOffset s.buffer (piece.data + BitVec.ofNat 64 j) ≠
        ringOffset s.buffer ((getReadable s.buffer).data + BitVec.ofNat 64 i)
  reads : ∀ q v, (q, v) ∈ s.reads → s.pushed[q]? = some v ∧ ∀ b, s.wrote q = some b → v = b
  wrote : ∀ q b, s.wrote q = some b → q < s.pushed.length → s.pushed[q]? = some b
  /-- Nothing is lost, duplicated or reordered. -/
  stream : s.popped ++ contents s.buffer = s.pushed

theorem Inv.safe {k : Nat} {s : Machine} (h : Inv k s) : Safe s := by
  have hat := h.cursors
  have hroom := hat.room
  have hle := hat.le
  have hreadable : (getReadable s.buffer).size.toNat = s.pushed.length - s.popped.length :=
    hat.readableSize_toNat
  have hwrote : ∀ q b, s.wrote q = some b → q < s.pushed.length → s.pushed[q]? = some b :=
    fun q b hq => (h.wrote q b hq).2.1
  refine ⟨?_, ?_, ?_, hwrote, h.stream⟩
  · have hsize : (s.buffer.header.w - s.buffer.header.r).toNat = _ := hreadable
    rw [hsize, hat.cap]
    omega
  · intro piece hpc j hj i hi he
    obtain ⟨hdata, hfit⟩ := h.producer_hold hpc
    have hstart : (getReadable s.buffer).data
        = bufferPos s.buffer (BitVec.ofNat 64 s.popped.length) :=
      congrArg (bufferPos s.buffer) hat.r
    rw [hdata, hstart, ringOffset_bufferPos hat.cap _ (by omega),
      ringOffset_bufferPos hat.cap _ (by omega)] at he
    have := Window.slot_inj (by omega) (by omega) he
    omega
  · intro q v hqv
    have hread := h.reads _ hqv
    refine ⟨hread, fun b hb => ?_⟩
    have hpub := hwrote q b hb (List.getElem?_eq_some_iff.mp hread).1
    exact Option.some.inj (hread.symm.trans hpub)

/-- On a ring of a power of two, no interleaving of the two sides breaks the stream. -/
theorem reachable_safe {cb : Buffer} {k : Nat} (hfresh : At cb k 0 0) {s : Machine}
    (h : Runs.Reachable step (start cb) s) : Safe s :=
  (h.invariant (start_inv hfresh) step_inv).safe

def handOver : List Event :=
  [.callGet .producer, .loadR .producer, .loadW .producer, .compute .producer, .loadOwn .producer,
    .write 0 7, .callMove .producer 1, .loadW .producer, .callGet .consumer, .loadR .producer,
    .compute .producer, .loadOwn .producer, .storeOwn .producer, .loadW .consumer,
    .loadR .consumer, .compute .consumer, .callMove .producer 1, .loadOwn .consumer, .read 0,
    .callMove .consumer 5, .loadW .consumer, .loadR .consumer, .compute .consumer,
    .loadOwn .consumer, .storeOwn .consumer]

theorem handOver_safe : ∃ s, Runs.exec step (start (zeroRing 4096)) handOver = some s ∧
    s.reads = [(0, 7)] ∧ s.popped = [7] ∧ Safe s := by
  have hfresh : At (zeroRing 4096) 12 0 0 := ⟨rfl, rfl, rfl, by decide, by decide⟩
  obtain ⟨s, hs, hreads, hpopped⟩ : ∃ s, Runs.exec step (start (zeroRing 4096)) handOver = some s ∧
      s.reads = [(0, 7)] ∧ s.popped = [7] := ⟨_, rfl, rfl, rfl⟩
  exact ⟨s, hs, hreads, hpopped, reachable_safe hfresh ⟨handOver, hs⟩⟩

end Flyzero.CircularBuffer.Spsc
