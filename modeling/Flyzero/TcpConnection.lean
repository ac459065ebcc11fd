import Flyzero.CircularBuffer.Ring
import Flyzero.Lib.Loop

/-! `tcp_connection`: the loops that move bytes between a socket and the two rings. -/
namespace Flyzero.TcpConnection
open CircularBuffer

/-- Why `recv` or `send` did not move a byte: the value 0, `EAGAIN` or `EWOULDBLOCK`, or
another error. -/
inductive Stop where
  | zero | again | error
  deriving DecidableEq

/-- What a socket will answer: positive results, and the first result that is not positive. -/
structure Script (α : Type) where
  positive : List α
  stop : Stop

/-- The user's side of a connection, with a state of its own. -/
structure Handler (υ : Type) where
  onRead : υ → List UInt8 → Word × υ
  onWrite : υ → List UInt8 → (Nat → UInt8) × Word × υ

structure Connection (υ : Type) where
  rcb : Buffer
  wcb : Buffer
  user : υ
  closed : Nat

def onClose {υ : Type} (c : Connection υ) : Connection υ := { c with closed := c.closed + 1 }

def window (cb : Buffer) (piece : Piece) : List UInt8 := load cb piece.data piece.size.toNat

theorem window_take_min (cb : Buffer) (piece : Piece) (n : Nat) :
    (window cb piece).take (min n piece.size.toNat) = (window cb piece).take n := by
  have hlen : (window cb piece).length = piece.size.toNat := load_length ..
  rw [← hlen, ← List.take_eq_take_min]

theorem ne_zero_of_pos {n : Word} (h : n > 0) : n ≠ 0 := by
  rintro rfl
  exact absurd h (by decide)

theorem toNat_of_not_pos {n : Word} (h : ¬ n > 0) : n.toNat = 0 := by
  have hlt := BitVec.lt_def.not.mp h
  change ¬ 0 < n.toNat at hlt
  omega

section Reading
variable {υ : Type} (handler : Handler υ)

/-- A call of `on_read`: the segments still to arrive, the requested lengths, the bytes received
and consumed, and the last result that was not positive. -/
structure Reading (υ : Type) where
  conn : Connection υ
  socket : Script (UInt8 × List UInt8)
  requests : List Word
  received : List UInt8
  consumed : List UInt8
  stopped : Option Stop

/-- `recv` takes at most `len` bytes of the next segment and leaves the rest in the socket. -/
def recv (len : Nat) : List (UInt8 × List UInt8) →
    Option (List UInt8 × List (UInt8 × List UInt8))
  | [] => none
  | (b, bs) :: rest =>
    match bs.drop (len - 1) with
    | [] => some (b :: bs, rest)
    | c :: cs => some (b :: bs.take (len - 1), (c, cs) :: rest)

def consume (s : Reading υ) : Word × Reading υ :=
  let rbuf := getReadable s.conn.rcb
  let bytes := window s.conn.rcb rbuf
  let (consumeSize, user) := handler.onRead s.conn.user bytes
  let rcb := if consumeSize > 0 then (popData s.conn.rcb consumeSize).2 else s.conn.rcb
  (consumeSize, { s with
    conn := { s.conn with rcb, user }
    consumed := s.consumed ++ bytes.take (min consumeSize.toNat rbuf.size.toNat) })

def readRound (s : Reading υ) : Reading υ ⊕ Reading υ :=
  let wbuf := getWritable s.conn.rcb
  if wbuf.size > 0 then
    let s := { s with requests := s.requests ++ [wbuf.size] }
    match recv wbuf.size.toNat s.socket.positive with
    | some (bytes, positive) =>
      let rcb := store s.conn.rcb wbuf.data bytes
      .inl { s with
        conn.rcb := (pushData rcb (BitVec.ofNat 64 bytes.length)).2
        socket.positive := positive
        received := s.received ++ bytes }
    | none =>
      let s := { s with stopped := some s.socket.stop }
      match s.socket.stop with
      | .zero =>
        let s := (consume handler s).2
        .inr { s with conn := onClose s.conn }
      | .again => .inr (consume handler s).2
      | .error => .inr { s with conn := onClose s.conn }
  else
    let (consumeSize, s) := consume handler s
    if consumeSize = 0 then .inr { s with conn := onClose s.conn } else .inl s

def OnRead (c : Connection υ) (socket : Script (UInt8 × List UInt8)) (s : Reading υ) : Prop :=
  Loop.Returns (readRound handler)
    { conn := c, socket, requests := [], received := [], consumed := [], stopped := none } s

def pending (segments : List (UInt8 × List UInt8)) : List UInt8 :=
  segments.flatMap fun (b, bs) => b :: bs

theorem recv_some {len : Nat} {segments rest : List (UInt8 × List UInt8)} {bytes : List UInt8}
    (h : recv len segments = some (bytes, rest)) (hlen : 0 < len) :
    bytes ≠ [] ∧ bytes.length ≤ len ∧ bytes ++ pending rest = pending segments := by
  cases segments with
  | nil => cases h
  | cons seg segments =>
    obtain ⟨b, bs⟩ := seg
    simp only [recv] at h
    split at h <;> cases h
    · rename_i hdrop
      have hle := List.drop_eq_nil_iff.mp hdrop
      exact ⟨by simp, by simp; omega, by simp [pending]⟩
    · rename_i c cs hdrop
      refine ⟨by simp, by simp; omega, ?_⟩
      simp [pending, ← List.append_assoc, ← hdrop]

theorem consume_spec {s : Reading υ} {k lo hi : Nat} (hat : At s.conn.rcb k lo hi) :
    let r := consume handler s
    At r.2.conn.rcb k (lo + min r.1.toNat (hi - lo)) hi ∧
      r.2.consumed ++ contents r.2.conn.rcb = s.consumed ++ contents s.conn.rcb := by
  intro r
  let n := (handler.onRead s.conn.user (window s.conn.rcb (getReadable s.conn.rcb))).1
  have hpop : At (if n > 0 then (popData s.conn.rcb n).2 else s.conn.rcb) k
        (lo + min n.toNat (hi - lo)) hi ∧
      contents (if n > 0 then (popData s.conn.rcb n).2 else s.conn.rcb)
        = (contents s.conn.rcb).drop n.toNat := by
    split
    · exact ⟨(hat.pop n).2, hat.contents_pop n⟩
    · rename_i hn
      rw [toNat_of_not_pos hn, Nat.zero_min]
      exact ⟨hat, rfl⟩
  refine ⟨hpop.1, ?_⟩
  change s.consumed ++ (window _ _).take (min n.toNat _) ++ contents (if n > 0 then _ else _) = _
  rw [window_take_min, hpop.2, List.append_assoc]
  exact congrArg _ (List.take_append_drop _ (contents s.conn.rcb))

structure ReadInv (k : Nat) (c : Connection υ) (socket : Script (UInt8 × List UInt8))
    (s : Reading υ) : Prop where
  cursors : ∃ lo hi, At s.conn.rcb k lo hi
  stream : s.consumed ++ contents s.conn.rcb = contents c.rcb ++ s.received
  arrived : s.received ++ pending s.socket.positive = pending socket.positive
  requests : ∀ len ∈ s.requests, len ≠ 0
  wcb : s.conn.wcb = c.wcb
  closed : s.conn.closed = c.closed

/-- The ring is full, and the callback has been shown all of it and has taken nothing. -/
def Refused (s : Reading υ) : Prop :=
  (getWritable s.conn.rcb).size = 0 ∧
    ∃ user, handler.onRead user (window s.conn.rcb (getReadable s.conn.rcb)) = (0, s.conn.user)

theorem consume_refused {s : Reading υ} (hfull : ¬ (getWritable s.conn.rcb).size > 0)
    (htook : (consume handler s).1 = 0) : Refused handler (consume handler s).2 := by
  have htaken : (handler.onRead s.conn.user
      (window s.conn.rcb (getReadable s.conn.rcb))).1 = 0 := htook
  have hrcb : (consume handler s).2.conn.rcb = s.conn.rcb := by
    simp only [consume, htaken]
    exact if_neg (by decide)
  rw [Refused, hrcb]
  refine ⟨BitVec.eq_of_toNat_eq (toNat_of_not_pos hfull), s.conn.user, ?_⟩
  rw [← htaken]
  rfl

/-- What one call of `on_read` has done when it returns. -/
structure ReadDone (c : Connection υ) (socket : Script (UInt8 × List UInt8)) (s : Reading υ) :
    Prop where
  stream : s.consumed ++ contents s.conn.rcb = contents c.rcb ++ s.received
  arrived : s.received ++ pending s.socket.positive = pending socket.positive
  requests : ∀ len ∈ s.requests, len ≠ 0
  wcb : s.conn.wcb = c.wcb
  ended : s.conn.closed = c.closed ∧ s.stopped = some .again ∨
    s.conn.closed = c.closed + 1 ∧
      (s.stopped = some .zero ∨ s.stopped = some .error ∨ Refused handler s)

theorem ReadInv.after_consume {k : Nat} {c : Connection υ}
    {socket : Script (UInt8 × List UInt8)} {s : Reading υ} (h : ReadInv k c socket s) :
    ReadInv k c socket (consume handler s).2 := by
  obtain ⟨lo, hi, hat⟩ := h.cursors
  obtain ⟨hat', hstream⟩ := consume_spec handler hat
  exact ⟨⟨_, _, hat'⟩, hstream.trans h.stream, h.arrived, h.requests, h.wcb, h.closed⟩

/-- Bytes still to arrive count twice, a full ring once. -/
def readMeasure (s : Reading υ) : Nat :=
  2 * (pending s.socket.positive).length + if (getWritable s.conn.rcb).size = 0 then 1 else 0

theorem ReadInv.request {k : Nat} {c : Connection υ} {socket : Script (UInt8 × List UInt8)}
    {s : Reading υ} (h : ReadInv k c socket s) {len : Word} (hlen : len > 0)
    (stopped : Option Stop) :
    ReadInv k c socket { s with requests := s.requests ++ [len], stopped := stopped } := by
  refine ⟨h.cursors, h.stream, h.arrived, ?_, h.wcb, h.closed⟩
  intro l hl
  rcases List.mem_append.mp hl with hl | hl
  · exact h.requests l hl
  · exact List.mem_singleton.mp hl ▸ ne_zero_of_pos hlen

theorem ReadInv.receive {k : Nat} {c : Connection υ} {socket : Script (UInt8 × List UInt8)}
    {s : Reading υ} (h : ReadInv k c socket s) {bytes : List UInt8}
    {rest : List (UInt8 × List UInt8)} (hroom : (getWritable s.conn.rcb).size > 0)
    (hrecv : recv (getWritable s.conn.rcb).size.toNat s.socket.positive = some (bytes, rest)) :
    let t : Reading υ := { s with
      conn.rcb := (pushData (store s.conn.rcb (getWritable s.conn.rcb).data bytes)
        (BitVec.ofNat 64 bytes.length)).2
      socket.positive := rest
      received := s.received ++ bytes }
    ReadInv k c socket t ∧ readMeasure t < readMeasure s := by
  intro t
  obtain ⟨lo, hi, hat⟩ := h.cursors
  have hsize : (getWritable s.conn.rcb).size.toNat = lo + 2 ^ k - hi := hat.writableSize_toNat
  have hlt := (getWritable s.conn.rcb).size.isLt
  obtain ⟨hne, hlen, hpending⟩ := recv_some hrecv (BitVec.lt_def.mp hroom)
  have hn : (BitVec.ofNat 64 bytes.length).toNat = bytes.length := by
    rw [BitVec.toNat_ofNat, Nat.mod_eq_of_lt (by omega)]
  have hmin : min (BitVec.ofNat 64 bytes.length).toNat (lo + 2 ^ k - hi) = bytes.length := by
    rw [hn, Nat.min_eq_left (hsize ▸ hlen)]
  have hpush := hat.contents_push bytes (hsize ▸ hlen) _ hmin.le
  rw [hmin, List.take_length] at hpush
  constructor
  · refine ⟨⟨_, _, ((hat.store _ bytes).push _).2⟩, ?_, ?_, h.requests, h.wcb, h.closed⟩
    · change s.consumed ++ contents _ = contents c.rcb ++ (s.received ++ bytes)
      rw [hpush, ← List.append_assoc, h.stream, List.append_assoc]
    · change s.received ++ bytes ++ pending rest = _
      rw [List.append_assoc, hpending, h.arrived]
  · have hshrink := congrArg List.length hpending
    have hpos := List.length_pos_iff.mpr hne
    rw [List.length_append] at hshrink
    rw [readMeasure, readMeasure, if_neg (ne_zero_of_pos hroom)]
    change 2 * (pending rest).length + (if _ then 1 else 0) < _
    split <;> omega

/-- On a full ring, a callback that takes something makes room. -/
theorem ReadInv.progress {k : Nat} {c : Connection υ}
    {socket : Script (UInt8 × List UInt8)} {s : Reading υ} (h : ReadInv k c socket s)
    (hfull : ¬ (getWritable s.conn.rcb).size > 0) (htook : (consume handler s).1 ≠ 0) :
    readMeasure (consume handler s).2 < readMeasure s := by
  obtain ⟨lo, hi, hat⟩ := h.cursors
  have hsize : (getWritable s.conn.rcb).size.toNat = lo + 2 ^ k - hi := hat.writableSize_toNat
  have hroom := hat.room
  rw [toNat_of_not_pos hfull] at hsize
  have hat' := (consume_spec handler hat).1
  have hsize' : (getWritable (consume handler s).2.conn.rcb).size.toNat = _ :=
    hat'.writableSize_toNat
  have hpos : 0 < (consume handler s).1.toNat :=
    Nat.pos_of_ne_zero fun hzero => htook (BitVec.eq_of_toNat_eq hzero)
  have hpow := Nat.two_pow_pos k
  have hmade : ¬ (getWritable (consume handler s).2.conn.rcb).size = 0 := by
    intro hzero
    rw [hzero] at hsize'
    change 0 = _ at hsize'
    omega
  have hzero : (getWritable s.conn.rcb).size = 0 :=
    BitVec.eq_of_toNat_eq (toNat_of_not_pos hfull)
  rw [readMeasure, readMeasure, if_neg hmade, if_pos hzero]
  exact Nat.lt_succ_self _

theorem readRound_spec {k : Nat} {c : Connection υ} {socket : Script (UInt8 × List UInt8)}
    (s : Reading υ) (h : ReadInv k c socket s) :
    Loop.Round (ReadInv k c socket) readMeasure (ReadDone handler c socket) s
      (readRound handler s) := by
  unfold readRound
  dsimp only
  by_cases hroom : (getWritable s.conn.rcb).size > 0
  · rw [if_pos hroom]
    cases hrecv : recv (getWritable s.conn.rcb).size.toNat s.socket.positive with
    | some r => exact (h.request hroom s.stopped).receive hroom hrecv
    | none =>
      dsimp only
      have hasked := h.request hroom (some s.socket.stop)
      have hdone := hasked.after_consume handler
      cases hstop : s.socket.stop with
      | zero =>
        rw [hstop] at hdone
        exact ⟨hdone.stream, hdone.arrived, hdone.requests, hdone.wcb,
          .inr ⟨congrArg (· + 1) hdone.closed, .inl rfl⟩⟩
      | again =>
        rw [hstop] at hdone
        exact ⟨hdone.stream, hdone.arrived, hdone.requests, hdone.wcb, .inl ⟨hdone.closed, rfl⟩⟩
      | error =>
        exact ⟨hasked.stream, hasked.arrived, hasked.requests, hasked.wcb,
          .inr ⟨congrArg (· + 1) hasked.closed, .inr (.inl (rfl))⟩⟩
  · rw [if_neg hroom]
    have hdone := h.after_consume handler
    by_cases htook : (consume handler s).1 = 0
    · rw [if_pos htook]
      exact ⟨hdone.stream, hdone.arrived, hdone.requests, hdone.wcb,
        .inr ⟨congrArg (· + 1) hdone.closed, .inr (.inr (consume_refused handler hroom htook))⟩⟩
    · rw [if_neg htook]
      exact ⟨hdone, h.progress handler hroom htook⟩

theorem onRead_done {k lo hi : Nat} (c : Connection υ) (socket : Script (UInt8 × List UInt8))
    (hat : At c.rcb k lo hi) : ∃ s, OnRead handler c socket s ∧ ReadDone handler c socket s :=
  Loop.total (readRound_spec handler)
    ⟨⟨lo, hi, hat⟩, by simp, rfl, by simp, rfl, rfl⟩

end Reading

section Writing
variable {υ : Type} (handler : Handler υ)

/-- A call of `on_write`: how much `send` will accept (`n` stands for at most `n + 1` bytes), the
requested lengths, and the bytes accepted and produced. -/
structure Writing (υ : Type) where
  conn : Connection υ
  socket : Script Nat
  requests : List Word
  accepted : List UInt8
  produced : List UInt8
  stopped : Option Stop

def produce (s : Writing υ) : Word × Writing υ :=
  let wbuf := getWritable s.conn.wcb
  let (fill, produceSize, user) := handler.onWrite s.conn.user (window s.conn.wcb wbuf)
  let bytes := (List.range wbuf.size.toNat).map fill
  let wcb := store s.conn.wcb wbuf.data bytes
  let wcb := if produceSize > 0 then (pushData wcb produceSize).2 else wcb
  (produceSize, { s with
    conn := { s.conn with wcb, user }
    produced := s.produced ++ bytes.take (min produceSize.toNat wbuf.size.toNat) })

def writeRound (s : Writing υ) : Writing υ ⊕ Writing υ :=
  let rbuf := getReadable s.conn.wcb
  if rbuf.size > 0 then
    let s := { s with requests := s.requests ++ [rbuf.size] }
    match s.socket.positive with
    | n :: positive =>
      let sent := min (n + 1) rbuf.size.toNat
      .inl { s with
        conn.wcb := (popData s.conn.wcb (BitVec.ofNat 64 sent)).2
        socket.positive := positive
        accepted := s.accepted ++ (window s.conn.wcb rbuf).take sent }
    | [] =>
      let s := { s with stopped := some s.socket.stop }
      match s.socket.stop with
      | .zero | .error => .inr { s with conn := onClose s.conn }
      | .again => .inr s
  else
    let (produceSize, s) := produce handler s
    if produceSize = 0 then .inr { s with conn := onClose s.conn } else .inl s

def OnWrite (c : Connection υ) (socket : Script Nat) (s : Writing υ) : Prop :=
  Loop.Returns (writeRound handler)
    { conn := c, socket, requests := [], accepted := [], produced := [], stopped := none } s

theorem produce_spec {s : Writing υ} {k lo hi : Nat} (hat : At s.conn.wcb k lo hi) :
    let r := produce handler s
    At r.2.conn.wcb k lo (hi + min r.1.toNat (lo + 2 ^ k - hi)) ∧
      ∃ made, r.2.produced = s.produced ++ made ∧
        contents r.2.conn.wcb = contents s.conn.wcb ++ made := by
  intro r
  have hsize : (getWritable s.conn.wcb).size.toNat = lo + 2 ^ k - hi := hat.writableSize_toNat
  let answer := handler.onWrite s.conn.user (window s.conn.wcb (getWritable s.conn.wcb))
  let bytes := (List.range (getWritable s.conn.wcb).size.toNat).map answer.1
  let n := answer.2.1
  let wcb := store s.conn.wcb (getWritable s.conn.wcb).data bytes
  have hbytes : bytes.length = lo + 2 ^ k - hi := by simp [bytes, hsize]
  have hmin := Nat.min_le_right n.toNat (lo + 2 ^ k - hi)
  have hpush : At (if n > 0 then (pushData wcb n).2 else wcb) k lo
        (hi + min n.toNat (lo + 2 ^ k - hi)) ∧
      contents (if n > 0 then (pushData wcb n).2 else wcb)
        = contents s.conn.wcb ++ bytes.take (min n.toNat (lo + 2 ^ k - hi)) := by
    split
    · exact ⟨((hat.store _ bytes).push n).2, hat.contents_push bytes hbytes.le n (hbytes ▸ hmin)⟩
    · rename_i hn
      rw [toNat_of_not_pos hn, Nat.zero_min, List.take_zero, List.append_nil]
      exact ⟨hat.store _ bytes, hat.contents_store bytes hbytes.le⟩
  refine ⟨hpush.1, _, rfl, ?_⟩
  change contents (if n > 0 then _ else _) = _
  rw [hpush.2, ← hsize]

structure WriteInv (k : Nat) (c : Connection υ) (s : Writing υ) : Prop where
  cursors : ∃ lo hi, At s.conn.wcb k lo hi
  stream : s.accepted ++ contents s.conn.wcb = contents c.wcb ++ s.produced
  requests : ∀ len ∈ s.requests, len ≠ 0
  rcb : s.conn.rcb = c.rcb
  closed : s.conn.closed = c.closed

def Dry (s : Writing υ) : Prop :=
  (getReadable s.conn.wcb).size = 0 ∧
    ∃ user bytes fill, handler.onWrite user bytes = (fill, 0, s.conn.user)

theorem produce_dry {s : Writing υ} (hempty : ¬ (getReadable s.conn.wcb).size > 0)
    (hmade : (produce handler s).1 = 0) : Dry handler (produce handler s).2 := by
  let answer := handler.onWrite s.conn.user (window s.conn.wcb (getWritable s.conn.wcb))
  have hmade : answer.2.1 = 0 := hmade
  have hsize : (getReadable (produce handler s).2.conn.wcb).size =
      (getReadable s.conn.wcb).size := by
    have hnone : ¬ answer.2.1 > 0 := by
      rw [hmade]
      decide
    simp only [produce]
    rw [if_neg hnone]
    simp [getReadable]
  refine ⟨hsize.trans (BitVec.eq_of_toNat_eq (toNat_of_not_pos hempty)), s.conn.user,
    window s.conn.wcb (getWritable s.conn.wcb), answer.1, ?_⟩
  rw [← hmade]
  rfl

/-- What one call of `on_write` has done when it returns. -/
structure WriteDone (c : Connection υ) (s : Writing υ) : Prop where
  stream : s.accepted ++ contents s.conn.wcb = contents c.wcb ++ s.produced
  requests : ∀ len ∈ s.requests, len ≠ 0
  rcb : s.conn.rcb = c.rcb
  ended : s.conn.closed = c.closed ∧ s.stopped = some .again ∨
    s.conn.closed = c.closed + 1 ∧
      (s.stopped = some .zero ∨ s.stopped = some .error ∨ Dry handler s)

theorem WriteInv.after_produce {k : Nat} {c : Connection υ} {s : Writing υ}
    (h : WriteInv k c s) : WriteInv k c (produce handler s).2 := by
  obtain ⟨lo, hi, hat⟩ := h.cursors
  obtain ⟨hat', made, hmade, hcontents⟩ := produce_spec handler hat
  refine ⟨⟨_, _, hat'⟩, ?_, h.requests, h.rcb, h.closed⟩
  change s.accepted ++ contents _ = _
  rw [hcontents, hmade, ← List.append_assoc, h.stream, List.append_assoc]

def writeMeasure (s : Writing υ) : Nat :=
  2 * s.socket.positive.length + if (getReadable s.conn.wcb).size = 0 then 1 else 0

theorem WriteInv.request {k : Nat} {c : Connection υ} {s : Writing υ} (h : WriteInv k c s)
    {len : Word} (hlen : len > 0) (stopped : Option Stop) :
    WriteInv k c { s with requests := s.requests ++ [len], stopped := stopped } := by
  refine ⟨h.cursors, h.stream, ?_, h.rcb, h.closed⟩
  intro l hl
  rcases List.mem_append.mp hl with hl | hl
  · exact h.requests l hl
  · exact List.mem_singleton.mp hl ▸ ne_zero_of_pos hlen

theorem WriteInv.send {k : Nat} {c : Connection υ} {s : Writing υ} (h : WriteInv k c s)
    {n : Nat} {rest : List Nat} (hready : (getReadable s.conn.wcb).size > 0)
    (hanswer : s.socket.positive = n :: rest) :
    let sent := min (n + 1) (getReadable s.conn.wcb).size.toNat
    let t : Writing υ := { s with
      conn.wcb := (popData s.conn.wcb (BitVec.ofNat 64 sent)).2
      socket.positive := rest
      accepted := s.accepted ++ (window s.conn.wcb (getReadable s.conn.wcb)).take sent }
    WriteInv k c t ∧ writeMeasure t < writeMeasure s := by
  intro sent t
  obtain ⟨lo, hi, hat⟩ := h.cursors
  have hlt := (getReadable s.conn.wcb).size.isLt
  have hsent : (BitVec.ofNat 64 sent).toNat = sent := by
    rw [BitVec.toNat_ofNat, Nat.mod_eq_of_lt (by omega)]
  constructor
  · refine ⟨⟨_, _, (hat.pop _).2⟩, ?_, h.requests, h.rcb, h.closed⟩
    change s.accepted ++ (contents s.conn.wcb).take sent ++ contents (popData _ _).2 = _
    rw [hat.contents_pop, hsent, List.append_assoc, List.take_append_drop, h.stream]
  · rw [writeMeasure, writeMeasure, if_neg (ne_zero_of_pos hready), hanswer, List.length_cons]
    change 2 * rest.length + (if _ then 1 else 0) < _
    split <;> omega

theorem WriteInv.progress {k : Nat} {c : Connection υ} {s : Writing υ} (h : WriteInv k c s)
    (hempty : ¬ (getReadable s.conn.wcb).size > 0) (hmade : (produce handler s).1 ≠ 0) :
    writeMeasure (produce handler s).2 < writeMeasure s := by
  obtain ⟨lo, hi, hat⟩ := h.cursors
  have hsize : (getReadable s.conn.wcb).size.toNat = hi - lo := hat.readableSize_toNat
  have hle := hat.le
  rw [toNat_of_not_pos hempty] at hsize
  have hsize' : (getReadable (produce handler s).2.conn.wcb).size.toNat = _ :=
    (produce_spec handler hat).1.readableSize_toNat
  have hpos : 0 < (produce handler s).1.toNat :=
    Nat.pos_of_ne_zero fun hzero => hmade (BitVec.eq_of_toNat_eq hzero)
  have hpow := Nat.two_pow_pos k
  have hfilled : ¬ (getReadable (produce handler s).2.conn.wcb).size = 0 := by
    intro hzero
    rw [hzero] at hsize'
    change 0 = _ at hsize'
    omega
  have hzero : (getReadable s.conn.wcb).size = 0 :=
    BitVec.eq_of_toNat_eq (toNat_of_not_pos hempty)
  rw [writeMeasure, writeMeasure, if_neg hfilled, if_pos hzero]
  exact Nat.lt_succ_self _

theorem writeRound_spec {k : Nat} {c : Connection υ} (s : Writing υ) (h : WriteInv k c s) :
    Loop.Round (WriteInv k c) writeMeasure (WriteDone handler c) s (writeRound handler s) := by
  unfold writeRound
  dsimp only
  by_cases hready : (getReadable s.conn.wcb).size > 0
  · rw [if_pos hready]
    cases hanswer : s.socket.positive with
    | cons n rest => exact (h.request hready s.stopped).send hready hanswer
    | nil =>
      dsimp only
      have hasked := h.request hready (some s.socket.stop)
      cases hstop : s.socket.stop with
      | again =>
        exact ⟨hasked.stream, hasked.requests, hasked.rcb, .inl ⟨hasked.closed, rfl⟩⟩
      | zero =>
        exact ⟨hasked.stream, hasked.requests, hasked.rcb,
          .inr ⟨congrArg (· + 1) hasked.closed, .inl (rfl)⟩⟩
      | error =>
        exact ⟨hasked.stream, hasked.requests, hasked.rcb,
          .inr ⟨congrArg (· + 1) hasked.closed, .inr (.inl (rfl))⟩⟩
  · rw [if_neg hready]
    have hdone := h.after_produce handler
    by_cases hmade : (produce handler s).1 = 0
    · rw [if_pos hmade]
      exact ⟨hdone.stream, hdone.requests, hdone.rcb,
        .inr ⟨congrArg (· + 1) hdone.closed, .inr (.inr (produce_dry handler hready hmade))⟩⟩
    · rw [if_neg hmade]
      exact ⟨hdone, h.progress handler hready hmade⟩

theorem onWrite_done {k lo hi : Nat} (c : Connection υ) (socket : Script Nat)
    (hat : At c.wcb k lo hi) : ∃ s, OnWrite handler c socket s ∧ WriteDone handler c s :=
  Loop.total (writeRound_spec handler)
    ⟨⟨lo, hi, hat⟩, (List.append_nil _).symm, by simp, rfl, rfl⟩

end Writing

def modest : Handler Bool where
  onRead open_ bytes := (BitVec.ofNat 64 bytes.length, open_)
  onWrite open_ _ := (fun _ => 7, if open_ then 2 else 0, false)

def quiet : Connection Bool :=
  { rcb := zeroRing 4096, wcb := zeroRing 4096, user := true, closed := 0 }

end Flyzero.TcpConnection
