import Flyzero.EventDispatch.EdgeTriggered
import Flyzero.TcpConnection

/-! Connections that a dispatcher serves: what becomes of the bytes, and of the edges. -/
namespace Flyzero.TcpConnection
open CircularBuffer EventDispatch

section
variable {υ : Type} (handler : Handler υ)

structure StillReading (k : Nat) (why : Stop) (s : Reading υ) : Prop where
  cursors : ∃ lo hi, At s.conn.rcb k lo hi
  stop : s.socket.stop = why
  stopped : s.stopped = none

structure StoppedReading (k : Nat) (why : Stop) (s : Reading υ) : Prop where
  cursors : ∃ lo hi, At s.conn.rcb k lo hi
  stop : s.socket.stop = why
  stopped : ∀ x, s.stopped = some x → x = why ∧ s.socket.positive = []

theorem recv_none {len : Nat} {segments : List (UInt8 × List UInt8)}
    (h : recv len segments = none) : segments = [] := by
  cases segments with
  | nil => rfl
  | cons seg segments =>
    obtain ⟨b, bs⟩ := seg
    simp only [recv] at h
    split at h <;> cases h

theorem consume_cursors {k : Nat} {s : Reading υ} (h : ∃ lo hi, At s.conn.rcb k lo hi) :
    ∃ lo hi, At (consume handler s).2.conn.rcb k lo hi := by
  obtain ⟨lo, hi, hat⟩ := h
  exact ⟨_, _, (consume_spec handler hat).1⟩

theorem readRound_stopped {k : Nat} {stop : Stop} {s : Reading υ}
    (h : StillReading k stop s) :
    match readRound handler s with
    | .inl t => StillReading k stop t
    | .inr r => StoppedReading k stop r := by
  obtain ⟨hcursors, hstop, hstopped⟩ := h
  unfold readRound
  dsimp only
  by_cases hroom : (getWritable s.conn.rcb).size > 0
  · rw [if_pos hroom]
    cases hrecv : recv (getWritable s.conn.rcb).size.toNat s.socket.positive with
    | some r =>
      obtain ⟨lo, hi, hat⟩ := hcursors
      exact ⟨⟨_, _, ((hat.store _ _).push _).2⟩, hstop, hstopped⟩
    | none =>
      have hnil := recv_none hrecv
      have htold : ∀ x, some s.socket.stop = some x → x = stop ∧ s.socket.positive = [] := by
        intro x hx
        exact ⟨(Option.some.inj hx).symm.trans hstop, hnil⟩
      dsimp only
      cases hwhy : s.socket.stop with
      | zero | again =>
        rw [hwhy] at htold
        exact ⟨consume_cursors handler hcursors, hstop, htold⟩
      | error =>
        rw [hwhy] at htold
        exact ⟨hcursors, hstop, htold⟩
  · rw [if_neg hroom]
    by_cases htook : (consume handler s).1 = 0
    · rw [if_pos htook]
      refine ⟨consume_cursors handler hcursors, hstop, fun x hx => ?_⟩
      cases hstopped.symm.trans hx
    · rw [if_neg htook]
      exact ⟨consume_cursors handler hcursors, hstop, hstopped⟩

theorem onRead_ends {k lo hi n : Nat} {c : Connection υ} {socket : Script (UInt8 × List UInt8)}
    {r : Reading υ} (hat : At c.rcb k lo hi)
    (hrun : Loop.run (readRound handler) n
      { conn := c, socket, requests := [], received := [], consumed := [], stopped := none } =
        some r) :
    ReadDone handler c socket r ∧ (∃ lo hi, At r.conn.rcb k lo hi) ∧
      (r.conn.closed = c.closed → r.socket = ⟨[], .again⟩ ∧ socket.stop = .again) := by
  obtain ⟨r', hr', hdone⟩ := onRead_done handler c socket hat
  obtain rfl : r = r' := Loop.Returns.unique ⟨n, hrun⟩ hr'
  have hends : StoppedReading k socket.stop r := by
    refine Loop.run_post (fun s t hs ht => ?_) (fun s t hs ht => ?_) hrun
      (⟨⟨lo, hi, hat⟩, rfl, rfl⟩ : StillReading k socket.stop _)
    · have hround := readRound_stopped handler hs
      rwa [ht] at hround
    · have hround := readRound_stopped handler hs
      rwa [ht] at hround
  refine ⟨hdone, hends.cursors, fun hclosed => ?_⟩
  obtain ⟨-, hstopped⟩ | ⟨hclosed', -⟩ := hdone.ended
  · obtain ⟨hstop, hnil⟩ := hends.stopped _ hstopped
    have hsocket : r.socket = ⟨r.socket.positive, r.socket.stop⟩ := rfl
    exact ⟨by rw [hsocket, hnil, hends.stop, ← hstop], hstop.symm⟩
  · omega

structure StillWriting (k : Nat) (why : Stop) (s : Writing υ) : Prop where
  cursors : ∃ lo hi, At s.conn.wcb k lo hi
  stop : s.socket.stop = why
  stopped : s.stopped = none

structure StoppedWriting (k : Nat) (why : Stop) (s : Writing υ) : Prop where
  cursors : ∃ lo hi, At s.conn.wcb k lo hi
  stop : s.socket.stop = why
  stopped : ∀ x, s.stopped = some x → x = why ∧ s.socket.positive = []

theorem produce_cursors {k : Nat} {s : Writing υ} (h : ∃ lo hi, At s.conn.wcb k lo hi) :
    ∃ lo hi, At (produce handler s).2.conn.wcb k lo hi := by
  obtain ⟨lo, hi, hat⟩ := h
  exact ⟨_, _, (produce_spec handler hat).1⟩

theorem writeRound_stopped {k : Nat} {stop : Stop} {s : Writing υ}
    (h : StillWriting k stop s) :
    match writeRound handler s with
    | .inl t => StillWriting k stop t
    | .inr r => StoppedWriting k stop r := by
  obtain ⟨hcursors, hstop, hstopped⟩ := h
  unfold writeRound
  dsimp only
  by_cases hready : (getReadable s.conn.wcb).size > 0
  · rw [if_pos hready]
    cases hanswer : s.socket.positive with
    | cons m rest =>
      obtain ⟨lo, hi, hat⟩ := hcursors
      exact ⟨⟨_, _, (hat.pop _).2⟩, hstop, hstopped⟩
    | nil =>
      have htold : ∀ x, some s.socket.stop = some x → x = stop ∧ s.socket.positive = [] := by
        intro x hx
        exact ⟨(Option.some.inj hx).symm.trans hstop, hanswer⟩
      dsimp only
      cases hwhy : s.socket.stop with
      | zero | again | error =>
        rw [hwhy] at htold
        exact ⟨hcursors, hstop, htold⟩
  · rw [if_neg hready]
    by_cases hmade : (produce handler s).1 = 0
    · rw [if_pos hmade]
      refine ⟨produce_cursors handler hcursors, hstop, fun x hx => ?_⟩
      cases hstopped.symm.trans hx
    · rw [if_neg hmade]
      exact ⟨produce_cursors handler hcursors, hstop, hstopped⟩

theorem onWrite_ends {k lo hi n : Nat} {c : Connection υ} {socket : Script Nat} {r : Writing υ}
    (hat : At c.wcb k lo hi)
    (hrun : Loop.run (writeRound handler) n
      { conn := c, socket, requests := [], accepted := [], produced := [], stopped := none } =
        some r) :
    WriteDone handler c r ∧ (∃ lo hi, At r.conn.wcb k lo hi) ∧
      (r.conn.closed = c.closed → r.socket = ⟨[], .again⟩ ∧ socket.stop = .again) := by
  obtain ⟨r', hr', hdone⟩ := onWrite_done handler c socket hat
  obtain rfl : r = r' := Loop.Returns.unique ⟨n, hrun⟩ hr'
  have hends : StoppedWriting k socket.stop r := by
    refine Loop.run_post (fun s t hs ht => ?_) (fun s t hs ht => ?_) hrun
      (⟨⟨lo, hi, hat⟩, rfl, rfl⟩ : StillWriting k socket.stop _)
    · have hround := writeRound_stopped handler hs
      rwa [ht] at hround
    · have hround := writeRound_stopped handler hs
      rwa [ht] at hround
  refine ⟨hdone, hends.cursors, fun hclosed => ?_⟩
  obtain ⟨-, hstopped⟩ | ⟨hclosed', -⟩ := hdone.ended
  · obtain ⟨hstop, hnil⟩ := hends.stopped _ hstopped
    have hsocket : r.socket = ⟨r.socket.positive, r.socket.stop⟩ := rfl
    exact ⟨by rw [hsocket, hnil, hends.stop, ← hstop], hstop.symm⟩
  · omega

end

def Script.ready {α : Type} (s : Script α) : Bool := !s.positive.isEmpty || s.stop ≠ .again

/-- The bytes of a connection: sent by the peer, taken by the callback, made by it, and accepted
by the socket. -/
structure Traffic where
  sent : List UInt8
  consumed : List UInt8
  produced : List UInt8
  accepted : List UInt8

structure Service (ι κ τ : Type*) (υ : Type) where
  reactor : Reactor ι κ τ
  conn : ι → Connection υ
  incoming : ι → Script (UInt8 × List UInt8)
  outgoing : ι → Script Nat
  traffic : ι → Traffic

inductive Event (ι κ τ : Type*) where
  | arrives (l : ι) (b : UInt8) (bs : List UInt8)
  /-- The socket will accept another `n + 1` bytes. -/
  | room (l : ι) (n : Nat)
  | endsInput (l : ι) (stop : Stop)
  | endsOutput (l : ι) (stop : Stop)
  | registers (l : ι) (events : Finset Ready)
  /-- The `on_read` or `on_write` that is running returns, after at most `n` rounds. -/
  | serves (n : Nat)
  | moves (move : Move ι κ τ)

namespace Service
variable {ι κ τ : Type*} {υ : Type}

def start (conn : ι → Connection υ) : Service ι κ τ υ where
  reactor := .start
  conn := conn
  incoming _ := ⟨[], .again⟩
  outgoing _ := ⟨[], .again⟩
  traffic _ := ⟨[], [], [], []⟩

/-- What a poll of the socket answers. -/
def polls (s : Service ι κ τ υ) (l : ι) : Finset Ready :=
  (if (s.incoming l).ready then {.read} else ∅) ∪ if (s.outgoing l).ready then {.write} else ∅

def foreign (r : Reactor ι κ τ) : Move ι κ τ → Bool
  | .registerIo _ _ | .wakes _ _ | .drains _ _ => false
  | .other (.returns _) | .other .throws => r.dispatcher.calls.isEmpty
  | _ => true

section
variable [DecidableEq ι] [DecidableEq κ] (handler : Handler υ) (fd : ι → Int) (grow : Nat → Nat)

def wakes (s : Service ι κ τ υ) (l : ι) (event : Ready) : Reactor ι κ τ :=
  if s.reactor.dispatcher.interest (fd l) = some l then
    { s.reactor with epoll := s.reactor.epoll.wake (fd l) true event }
  else s.reactor

/-- `on_close` closes the descriptor; otherwise it is drained. -/
def settles (s : Service ι κ τ υ) (l : ι) (event : Ready) (closed : Bool) :
    Option (Reactor ι κ τ) :=
  if s.reactor.dispatcher.interest (fd l) = some l then
    s.reactor.step fd grow (if closed then .other (.closed (fd l)) else .drains (fd l) event)
  else some s.reactor

def reads (s : Service ι κ τ υ) (l : ι) (n : Nat) : Option (Service ι κ τ υ) :=
  let alive := (s.conn l).closed = 0
  let socket := if alive then s.incoming l else ⟨[], .error⟩
  (Loop.run (readRound handler) n
    { conn := s.conn l, socket, requests := [], received := [], consumed := [],
      stopped := none }).bind fun r =>
    (s.settles fd grow l .read (r.conn.closed ≠ (s.conn l).closed)).map fun reactor =>
      { s with
        reactor
        conn := Function.update s.conn l r.conn
        incoming := if alive then Function.update s.incoming l r.socket else s.incoming
        traffic := Function.update s.traffic l
          { s.traffic l with consumed := (s.traffic l).consumed ++ r.consumed } }

def writes (s : Service ι κ τ υ) (l : ι) (n : Nat) : Option (Service ι κ τ υ) :=
  let alive := (s.conn l).closed = 0
  let socket := if alive then s.outgoing l else ⟨[], .error⟩
  (Loop.run (writeRound handler) n
    { conn := s.conn l, socket, requests := [], accepted := [], produced := [],
      stopped := none }).bind fun r =>
    (s.settles fd grow l .write (r.conn.closed ≠ (s.conn l).closed)).map fun reactor =>
      { s with
        reactor
        conn := Function.update s.conn l r.conn
        outgoing := if alive then Function.update s.outgoing l r.socket else s.outgoing
        traffic := Function.update s.traffic l
          { s.traffic l with
            produced := (s.traffic l).produced ++ r.produced
            accepted := (s.traffic l).accepted ++ r.accepted } }

def step (s : Service ι κ τ υ) : Event ι κ τ → Option (Service ι κ τ υ)
  | .arrives l b bs =>
    if (s.incoming l).stop = .again then
      some { s with
        reactor := s.wakes fd l .read
        incoming := Function.update s.incoming l
          { s.incoming l with positive := (s.incoming l).positive ++ [(b, bs)] }
        traffic := Function.update s.traffic l
          { s.traffic l with sent := (s.traffic l).sent ++ b :: bs } }
    else none
  | .room l n =>
    if (s.outgoing l).stop = .again then
      some { s with
        reactor := s.wakes fd l .write
        outgoing := Function.update s.outgoing l
          { s.outgoing l with positive := (s.outgoing l).positive ++ [n] } }
    else none
  | .endsInput l stop =>
    if (s.incoming l).stop = .again then
      some { s with
        reactor := s.wakes fd l .read
        incoming := Function.update s.incoming l { s.incoming l with stop } }
    else none
  | .endsOutput l stop =>
    if (s.outgoing l).stop = .again then
      some { s with
        reactor := s.wakes fd l .write
        outgoing := Function.update s.outgoing l { s.outgoing l with stop } }
    else none
  | .registers l events =>
    let polled := Function.update s.reactor.epoll.polled (fd l) (s.polls l)
    (Reactor.step fd grow { s.reactor with epoll := { s.reactor.epoll with polled } }
      (.registerIo l events)).map fun reactor => { s with reactor }
  | .serves n =>
    match s.reactor.dispatcher.running with
    | none => none
    | some (l, event) =>
      (match event with
        | .read => s.reads handler fd grow l n
        | .write => s.writes handler fd grow l n).bind fun s =>
          (s.reactor.step fd grow (.other (.returns true))).map fun reactor => { s with reactor }
  | .moves move =>
    if foreign s.reactor move then
      (s.reactor.step fd grow move).map fun reactor => { s with reactor }
    else none

end

/-- What a peer has sent is taken in order, is in the ring, or waits in the socket, and what the
callback has made is accepted in order or is in the ring. -/
structure Faithful (s : Service ι κ τ υ) (l : ι) : Prop where
  input : (s.traffic l).consumed ++ contents (s.conn l).rcb ++ pending (s.incoming l).positive =
    (s.traffic l).sent
  output : (s.traffic l).accepted ++ contents (s.conn l).wcb = (s.traffic l).produced

/-- A registered connection whose socket is ready is on the ready list, or is called for it. -/
def Told (fd : ι → Int) (s : Service ι κ τ υ) (l : ι) : Prop :=
  s.reactor.dispatcher.interest (fd l) = some l →
    ∀ event ∈ s.polls l, event ∈ s.reactor.epoll.events (fd l) →
      fd l ∈ s.reactor.epoll.readyList ∨ (l, event) ∈ s.reactor.dispatcher.calls

section
variable {fd : ι → Int} {grow : Nat → Nat} {r t : Reactor ι κ τ} {polls polls' : ι → Finset Ready}

/-- The reactor knows of what the sockets of its listeners answer. -/
structure Watch (fd : ι → Int) (r : Reactor ι κ τ) (polls : ι → Finset Ready) : Prop where
  orderly : r.Orderly fd
  attended : r.Attended
  polled : ∀ l, r.dispatcher.interest (fd l) = some l → polls l ⊆ r.epoll.polled (fd l)

theorem foreign_drained {move : Move ι κ τ} (hforeign : foreign r move = true) :
    r.Drained move := by
  intro call hcall
  have hidle : r.ended move = [] := by
    cases move with
    | registerIo | epollWait | wakes | drains => rfl
    | other op =>
      cases op with
      | returns result =>
        have hcalls : r.dispatcher.calls = [] := by simpa [foreign] using hforeign
        exact (List.append_eq_nil_iff.mp hcalls).1
      | throws => simpa [foreign, Reactor.ended] using hforeign
      | control | closed | runOnce | epollWait | interrupted => rfl
  rw [hidle] at hcall
  cases hcall

variable [DecidableEq ι] [DecidableEq κ]

theorem Watch.other {op : Op ι κ τ} (h : Watch fd r polls) (hdrained : r.Drained (.other op))
    (hstep : r.step fd grow (.other op) = some t) : Watch fd t polls := by
  refine ⟨Reactor.step_orderly hstep h.orderly, (Reactor.step_attended hstep h.orderly
    h.attended).mpr hdrained, ?_⟩
  cases Reactor.step_moves hstep with
  | ends _ hinterest =>
    intro l hl
    rw [hinterest] at hl
    exact h.polled l hl
  | @forgets n op d _ _ hinterest =>
    intro l hl
    rw [hinterest] at hl
    by_cases hn : fd l = n
    · rw [hn, Function.update_self] at hl
      cases hl
    · rw [Function.update_of_ne hn] at hl
      exact h.polled l hl

theorem Watch.foreign {move : Move ι κ τ} (h : Watch fd r polls)
    (hforeign : foreign r move = true) (hstep : r.step fd grow move = some t) :
    Watch fd t polls := by
  cases move with
  | registerIo | wakes | drains => simp [Service.foreign] at hforeign
  | other op => exact h.other (foreign_drained hforeign) hstep
  | epollWait time now fds =>
    refine ⟨Reactor.step_orderly hstep h.orderly, (Reactor.step_attended hstep h.orderly
      h.attended).mpr nofun, ?_⟩
    cases Reactor.step_moves hstep with
    | epollWait _ _ _ hinterest =>
      intro l hl
      rw [hinterest] at hl
      exact h.polled l hl

theorem Watch.wakes {s : Service ι κ τ υ} {l : ι} {event : Ready} (h : Watch fd s.reactor polls)
    (hself : polls' l ⊆ insert event (polls l)) (hother : ∀ l', l' ≠ l → polls' l' = polls l') :
    Watch fd (s.wakes fd l event) polls' := by
  unfold Service.wakes
  split
  · rename_i hl
    have hstep : s.reactor.step fd id (.wakes (fd l) event) =
        some { s.reactor with epoll := s.reactor.epoll.wake (fd l) true event } := by
      simp [Reactor.step, hl]
    refine ⟨Reactor.step_orderly hstep h.orderly, (Reactor.step_attended hstep h.orderly
      h.attended).mpr nofun, fun l' hl' => ?_⟩
    simp only [Epoll.wake]
    by_cases hfd : fd l' = fd l
    · obtain rfl : l' = l := by simpa [hfd, hl] using hl'.symm
      rw [Function.update_self]
      exact hself.trans (Finset.insert_subset_insert _ (h.polled l' hl'))
    · rw [Function.update_of_ne hfd, hother l' (fun heq => hfd (congrArg fd heq))]
      exact h.polled l' hl'
  · rename_i hl
    refine ⟨h.orderly, h.attended, fun l' hl' => ?_⟩
    rw [hother l' fun heq => hl (heq ▸ hl')]
    exact h.polled l' hl'

theorem Watch.registers {l : ι} {events : Finset Ready} (h : Watch fd r polls)
    (hstep : Reactor.step fd grow
      { r with epoll.polled := Function.update r.epoll.polled (fd l) (polls l) }
      (.registerIo l events) = some t) : Watch fd t polls := by
  have hfree := Reactor.registerIo_free hstep
  have horderly : Reactor.Orderly fd
      { r with epoll.polled := Function.update r.epoll.polled (fd l) (polls l) } :=
    ⟨h.orderly.nodup, h.orderly.interest⟩
  have hattended : Reactor.Attended
      { r with epoll.polled := Function.update r.epoll.polled (fd l) (polls l) } := by
    intro call hcall
    obtain ⟨n, hn, hevents, hpolled, hlisted⟩ := hcall
    refine h.attended call ⟨n, hn, hevents, ?_, hlisted⟩
    by_cases hfd : n = fd l
    · rw [hfd, hfree] at hn
      cases hn
    · simpa [Function.update_of_ne hfd] using hpolled
  refine ⟨Reactor.step_orderly hstep horderly, (Reactor.step_attended hstep horderly
    hattended).mpr nofun, ?_⟩
  cases Reactor.step_moves hstep with
  | registerIo _ hinterest =>
    intro l' hl'
    rw [hinterest] at hl'
    simp only [Epoll.add]
    by_cases hfd : fd l' = fd l
    · rw [hfd, Function.update_self] at hl' ⊢
      cases hl'
      exact subset_rfl
    · rw [Function.update_of_ne hfd] at hl' ⊢
      exact h.polled l' hl'

/-- What a call leaves behind is no reason to call again. -/
theorem Watch.settles {s : Service ι κ τ υ} {l : ι} {event : Ready} {closed : Bool}
    (h : Watch fd s.reactor polls) (hstep : s.settles fd grow l event closed = some t)
    (hself : closed = false → polls' l ⊆ (polls l).erase event)
    (hother : ∀ l', l' ≠ l → polls' l' = polls l') :
    Watch fd t polls' ∧ ¬ t.Unlisted (l, event) ∧
      t.dispatcher.running = s.reactor.dispatcher.running := by
  unfold Service.settles at hstep
  split at hstep
  · rename_i hl
    cases closed with
    | true =>
      have ht := h.other (nofun : s.reactor.Drained (.other (.closed (fd l)))) hstep
      cases hstep
      refine ⟨⟨ht.orderly, ht.attended, fun l' hl' => ?_⟩, ?_, rfl⟩
      · have hne : l' ≠ l := by
          intro heq
          simp [heq] at hl'
        rw [hother l' hne]
        exact ht.polled l' hl'
      · intro hunlisted
        obtain ⟨n, hn, -⟩ := hunlisted
        obtain rfl : fd l = n := ht.orderly.interest n l hn
        simp at hn
    | false =>
      have horderly := Reactor.step_orderly hstep h.orderly
      have hattended := (Reactor.step_attended hstep h.orderly h.attended).mpr nofun
      cases hstep
      refine ⟨⟨horderly, hattended, fun l' hl' => ?_⟩, ?_, rfl⟩
      · simp only [Epoll.drain]
        by_cases hfd : fd l' = fd l
        · obtain rfl : l' = l := by simpa [hfd, hl] using hl'.symm
          rw [Function.update_self]
          exact (hself rfl).trans (Finset.erase_subset_erase _ (h.polled l' hl'))
        · rw [Function.update_of_ne hfd, hother l' (fun heq => hfd (congrArg fd heq))]
          exact h.polled l' hl'
      · intro hunlisted
        obtain ⟨n, hn, -, hpolled, -⟩ := hunlisted
        obtain rfl : fd l = n := h.orderly.interest n l hn
        simp [Epoll.drain] at hpolled
  · rename_i hl
    cases hstep
    refine ⟨⟨h.orderly, h.attended, fun l' hl' => ?_⟩, ?_, rfl⟩
    · rw [hother l' fun heq => hl (heq ▸ hl')]
      exact h.polled l' hl'
    · intro hunlisted
      obtain ⟨n, hn, -⟩ := hunlisted
      exact hl (h.orderly.interest n l hn ▸ hn)

end

theorem mem_polls {s : Service ι κ τ υ} {l : ι} {event : Ready} : event ∈ s.polls l ↔
    event = .read ∧ (s.incoming l).ready ∨ event = .write ∧ (s.outgoing l).ready := by
  by_cases hin : (s.incoming l).ready = true <;> by_cases hout : (s.outgoing l).ready = true <;>
    cases event <;> simp [polls, hin, hout]

structure Inv (fd : ι → Int) (s : Service ι κ τ υ) : Prop where
  watch : Watch fd s.reactor s.polls
  rcb : ∀ l, ∃ k lo hi, At (s.conn l).rcb k lo hi
  wcb : ∀ l, ∃ k lo hi, At (s.conn l).wcb k lo hi
  faithful : ∀ l, s.Faithful l

theorem Inv.told {fd : ι → Int} {s : Service ι κ τ υ} (h : Inv fd s) (l : ι) : s.Told fd l := by
  intro hl event hpolls hevents
  by_cases hlisted : fd l ∈ s.reactor.epoll.readyList
  · exact .inl hlisted
  · exact .inr (h.watch.attended (l, event)
      ⟨fd l, hl, hevents, h.watch.polled l hl hpolls, hlisted⟩)

theorem start_inv {fd : ι → Int} {conn : ι → Connection υ}
    (hrcb : ∀ l, ∃ k lo, At (conn l).rcb k lo lo) (hwcb : ∀ l, ∃ k lo, At (conn l).wcb k lo lo) :
    Inv fd (.start conn : Service ι κ τ υ) := by
  refine ⟨⟨⟨List.nodup_nil, nofun⟩, fun call hcall => ?_, nofun⟩, fun l => ?_, fun l => ?_,
    fun l => ?_⟩
  · obtain ⟨n, hn, -⟩ := hcall
    cases hn
  · obtain ⟨k, lo, hat⟩ := hrcb l
    exact ⟨k, lo, lo, hat⟩
  · obtain ⟨k, lo, hat⟩ := hwcb l
    exact ⟨k, lo, lo, hat⟩
  · obtain ⟨k, lo, hat⟩ := hrcb l
    obtain ⟨k', lo', hat'⟩ := hwcb l
    refine ⟨?_, ?_⟩
    · change [] ++ contents (conn l).rcb ++ [] = []
      simp [hat.contents_eq, Window.cells]
    · change [] ++ contents (conn l).wcb = []
      simp [hat'.contents_eq, Window.cells]

section
variable [DecidableEq ι] [DecidableEq κ] {handler : Handler υ} {fd : ι → Int} {grow : Nat → Nat}
  {s t : Service ι κ τ υ} {l : ι} {n : Nat}

theorem reads_inv (h : Inv fd s) (hreads : s.reads handler fd grow l n = some t) :
    Inv fd t ∧ ¬ t.reactor.Unlisted (l, .read) ∧
      t.reactor.dispatcher.running = s.reactor.dispatcher.running := by
  obtain ⟨r, hrun, hsettles⟩ := Option.bind_eq_some_iff.mp hreads
  obtain ⟨reactor, hreactor, rfl⟩ := Option.map_eq_some_iff.mp hsettles
  obtain ⟨k, lo, hi, hat⟩ := h.rcb l
  obtain ⟨hdone, hcursors, hdrained⟩ := onRead_ends handler hat hrun
  let incoming :=
    if (s.conn l).closed = 0 then Function.update s.incoming l r.socket else s.incoming
  have hincoming (l' : ι) (hl' : l' ≠ l) : incoming l' = s.incoming l' := by
    by_cases halive : (s.conn l).closed = 0 <;> simp [incoming, halive, hl']
  have hself (hclosed : decide (r.conn.closed ≠ (s.conn l).closed) = false) :
      polls { s with incoming } l ⊆ (s.polls l).erase .read := by
    obtain ⟨hsocket, hstop⟩ := hdrained (by simpa using hclosed)
    have halive : (s.conn l).closed = 0 := by
      by_contra halive
      simp [halive] at hstop
    have hidle : (incoming l).ready = false := by simp [incoming, halive, hsocket, Script.ready]
    intro event hevent
    obtain ⟨-, hready⟩ | ⟨rfl, hready⟩ := mem_polls.mp hevent
    · exact absurd hready (by simp [hidle])
    · exact Finset.mem_erase.mpr ⟨nofun, mem_polls.mpr (.inr ⟨rfl, hready⟩)⟩
  obtain ⟨hwatch, hunlisted, hrunning⟩ :=
    h.watch.settles hreactor (hself : _ → polls { s with incoming } l ⊆ _) fun l' hl' => by
      simp [polls, hincoming l' hl']
  refine ⟨⟨hwatch, fun l' => ?_, fun l' => ?_, fun l' => ?_⟩, hunlisted, hrunning⟩
  · by_cases hl' : l' = l
    · subst hl'
      simpa using ⟨k, hcursors⟩
    · simpa [hl'] using h.rcb l'
  · by_cases hl' : l' = l
    · subst hl'
      simpa [hdone.wcb] using h.wcb l'
    · simpa [hl'] using h.wcb l'
  · obtain ⟨hinput, houtput⟩ := h.faithful l'
    by_cases hl' : l' = l
    · subst hl'
      refine ⟨?_, by simpa [hdone.wcb] using houtput⟩
      have hstream : (s.traffic l').consumed ++ r.consumed ++ contents r.conn.rcb =
          (s.traffic l').consumed ++ contents (s.conn l').rcb ++ r.received := by
        simp [hdone.stream]
      have harrived := hdone.arrived
      simp only [Function.update_self, hstream]
      by_cases halive : (s.conn l').closed = 0
      · simp only [halive, if_true, Function.update_self] at harrived ⊢
        rw [← hinput, ← harrived, List.append_assoc]
      · simp only [halive, if_false] at harrived ⊢
        obtain ⟨hreceived, -⟩ := List.append_eq_nil_iff.mp harrived
        rw [hreceived, List.append_nil, hinput]
    · refine ⟨?_, by simpa [hl'] using houtput⟩
      have hsame := hincoming l' hl'
      simp only [incoming] at hsame
      simpa [hl', hsame] using hinput

theorem writes_inv (h : Inv fd s) (hwrites : s.writes handler fd grow l n = some t) :
    Inv fd t ∧ ¬ t.reactor.Unlisted (l, .write) ∧
      t.reactor.dispatcher.running = s.reactor.dispatcher.running := by
  obtain ⟨r, hrun, hsettles⟩ := Option.bind_eq_some_iff.mp hwrites
  obtain ⟨reactor, hreactor, rfl⟩ := Option.map_eq_some_iff.mp hsettles
  obtain ⟨k, lo, hi, hat⟩ := h.wcb l
  obtain ⟨hdone, hcursors, hdrained⟩ := onWrite_ends handler hat hrun
  let outgoing :=
    if (s.conn l).closed = 0 then Function.update s.outgoing l r.socket else s.outgoing
  have houtgoing (l' : ι) (hl' : l' ≠ l) : outgoing l' = s.outgoing l' := by
    by_cases halive : (s.conn l).closed = 0 <;> simp [outgoing, halive, hl']
  have hself (hclosed : decide (r.conn.closed ≠ (s.conn l).closed) = false) :
      polls { s with outgoing } l ⊆ (s.polls l).erase .write := by
    obtain ⟨hsocket, hstop⟩ := hdrained (by simpa using hclosed)
    have halive : (s.conn l).closed = 0 := by
      by_contra halive
      simp [halive] at hstop
    have hidle : (outgoing l).ready = false := by simp [outgoing, halive, hsocket, Script.ready]
    intro event hevent
    obtain ⟨rfl, hready⟩ | ⟨-, hready⟩ := mem_polls.mp hevent
    · exact Finset.mem_erase.mpr ⟨nofun, mem_polls.mpr (.inl ⟨rfl, hready⟩)⟩
    · exact absurd hready (by simp [hidle])
  obtain ⟨hwatch, hunlisted, hrunning⟩ :=
    h.watch.settles hreactor (hself : _ → polls { s with outgoing } l ⊆ _) fun l' hl' => by
      simp [polls, houtgoing l' hl']
  refine ⟨⟨hwatch, fun l' => ?_, fun l' => ?_, fun l' => ?_⟩, hunlisted, hrunning⟩
  · by_cases hl' : l' = l
    · subst hl'
      simpa [hdone.rcb] using h.rcb l'
    · simpa [hl'] using h.rcb l'
  · by_cases hl' : l' = l
    · subst hl'
      simpa using ⟨k, hcursors⟩
    · simpa [hl'] using h.wcb l'
  · obtain ⟨hinput, houtput⟩ := h.faithful l'
    by_cases hl' : l' = l
    · subst hl'
      refine ⟨by simpa [hdone.rcb] using hinput, ?_⟩
      simp only [Function.update_self]
      rw [List.append_assoc, hdone.stream, ← List.append_assoc, houtput]
    · exact ⟨by simpa [hl'] using hinput, by simpa [hl'] using houtput⟩

theorem Inv.edge {event : Ready} {incoming : ι → Script (UInt8 × List UInt8)}
    {outgoing : ι → Script Nat} {traffic : ι → Traffic} (h : Inv fd s)
    (hother : ∀ l', l' ≠ l → incoming l' = s.incoming l' ∧ outgoing l' = s.outgoing l' ∧
      traffic l' = s.traffic l')
    (hself : polls { s with incoming, outgoing, traffic } l ⊆ insert event (s.polls l))
    (hfaithful : Faithful { s with incoming, outgoing, traffic } l) :
    Inv fd { s with reactor := s.wakes fd l event, incoming, outgoing, traffic } := by
  refine ⟨h.watch.wakes hself fun l' hl' => ?_, h.rcb, h.wcb, fun l' => ?_⟩
  · obtain ⟨hin, hout, -⟩ := hother l' hl'
    simp [polls, hin, hout]
  · by_cases hl' : l' = l
    · subst hl'
      exact ⟨hfaithful.input, hfaithful.output⟩
    · obtain ⟨hin, -, htraffic⟩ := hother l' hl'
      obtain ⟨hinput, houtput⟩ := h.faithful l'
      exact ⟨by simpa [hin, htraffic] using hinput, by simpa [htraffic] using houtput⟩

theorem step_inv {event : Event ι κ τ} (h : Inv fd s)
    (hstep : s.step handler fd grow event = some t) : Inv fd t := by
  cases event with
  | arrives l b bs =>
    obtain ⟨hstop, hstep⟩ := Option.ite_none_right_eq_some.mp hstep
    cases hstep
    obtain ⟨hinput, houtput⟩ := h.faithful l
    refine h.edge (fun l' hl' => by simp [hl']) (fun event hevent => ?_)
      ⟨?_, by simpa using houtput⟩
    · obtain ⟨rfl, -⟩ | ⟨rfl, hready⟩ := mem_polls.mp hevent
      · exact Finset.mem_insert_self ..
      · exact Finset.mem_insert_of_mem (mem_polls.mpr (.inr ⟨rfl, hready⟩))
    · simp only [Function.update_self]
      rw [← hinput]
      simp [pending]
  | room l n =>
    obtain ⟨hstop, hstep⟩ := Option.ite_none_right_eq_some.mp hstep
    cases hstep
    refine h.edge (fun l' hl' => by simp [hl']) (fun event hevent => ?_)
      ⟨(h.faithful l).input, (h.faithful l).output⟩
    obtain ⟨rfl, hready⟩ | ⟨rfl, -⟩ := mem_polls.mp hevent
    · exact Finset.mem_insert_of_mem (mem_polls.mpr (.inl ⟨rfl, hready⟩))
    · exact Finset.mem_insert_self ..
  | endsInput l stop =>
    obtain ⟨hstop, hstep⟩ := Option.ite_none_right_eq_some.mp hstep
    cases hstep
    obtain ⟨hinput, houtput⟩ := h.faithful l
    refine h.edge (fun l' hl' => by simp [hl']) (fun event hevent => ?_)
      ⟨by simpa using hinput, houtput⟩
    obtain ⟨rfl, -⟩ | ⟨rfl, hready⟩ := mem_polls.mp hevent
    · exact Finset.mem_insert_self ..
    · exact Finset.mem_insert_of_mem (mem_polls.mpr (.inr ⟨rfl, hready⟩))
  | endsOutput l stop =>
    obtain ⟨hstop, hstep⟩ := Option.ite_none_right_eq_some.mp hstep
    cases hstep
    refine h.edge (fun l' hl' => by simp [hl']) (fun event hevent => ?_)
      ⟨(h.faithful l).input, (h.faithful l).output⟩
    obtain ⟨rfl, hready⟩ | ⟨rfl, -⟩ := mem_polls.mp hevent
    · exact Finset.mem_insert_of_mem (mem_polls.mpr (.inl ⟨rfl, hready⟩))
    · exact Finset.mem_insert_self ..
  | registers l events =>
    obtain ⟨reactor, hreactor, rfl⟩ := Option.map_eq_some_iff.mp hstep
    exact ⟨h.watch.registers hreactor, h.rcb, h.wcb, fun l' =>
      ⟨(h.faithful l').input, (h.faithful l').output⟩⟩
  | serves n =>
    simp only [step] at hstep
    split at hstep
    · cases hstep
    · rename_i l event hrunning
      obtain ⟨u, hserves, hreturns⟩ := Option.bind_eq_some_iff.mp hstep
      obtain ⟨reactor, hreactor, rfl⟩ := Option.map_eq_some_iff.mp hreturns
      obtain ⟨hu, hunlisted, hsame⟩ : Inv fd u ∧ ¬ u.reactor.Unlisted (l, event) ∧
          u.reactor.dispatcher.running = s.reactor.dispatcher.running := by
        cases event with
        | read => exact reads_inv h hserves
        | write => exact writes_inv h hserves
      have hdrained : u.reactor.Drained (.other (.returns true)) := by
        intro call hcall
        simp only [Reactor.ended, hsame, hrunning, Option.toList_some, List.mem_singleton] at hcall
        exact hcall ▸ hunlisted
      exact ⟨hu.watch.other hdrained hreactor, hu.rcb, hu.wcb, fun l' =>
        ⟨(hu.faithful l').input, (hu.faithful l').output⟩⟩
  | moves move =>
    obtain ⟨hforeign, hstep⟩ := Option.ite_none_right_eq_some.mp hstep
    obtain ⟨reactor, hreactor, rfl⟩ := Option.map_eq_some_iff.mp hstep
    exact ⟨h.watch.foreign hforeign hreactor, h.rcb, h.wcb, fun l' =>
      ⟨(h.faithful l').input, (h.faithful l').output⟩⟩

/-- In every run from connections that are open and empty, whatever becomes ready at whatever
time: no byte is lost, doubled or reordered, and a registered connection whose socket is ready is
on the ready list or is called for it. When nobody is listed or called, every byte sent to a
connection that is registered for reading has been given to its callback or is in the ring. -/
theorem reachable_faithful {conn : ι → Connection υ}
    (hrcb : ∀ l, ∃ k lo, At (conn l).rcb k lo lo) (hwcb : ∀ l, ∃ k lo, At (conn l).wcb k lo lo)
    (h : Runs.Reachable (step handler fd grow) (.start conn) s) (l : ι) :
    s.Faithful l ∧ s.Told fd l ∧
      (s.reactor.epoll.readyList = ∅ → s.reactor.dispatcher.calls = [] →
        s.reactor.dispatcher.interest (fd l) = some l → .read ∈ s.reactor.epoll.events (fd l) →
        (s.traffic l).consumed ++ contents (s.conn l).rcb = (s.traffic l).sent) := by
  have hinv : Inv fd s := h.invariant (start_inv hrcb hwcb) fun s event t hstep hs =>
    step_inv hs hstep
  have htold := hinv.told l
  refine ⟨hinv.faithful l, htold, fun hlist hcalls hl hevents => ?_⟩
  have hidle : ¬ (s.incoming l).ready = true := by
    intro hready
    have hearing := htold hl .read (mem_polls.mpr (.inl ⟨rfl, hready⟩)) hevents
    simp [hlist, hcalls] at hearing
  have hnil : (s.incoming l).positive = [] := by
    simp [Script.ready] at hidle
    exact hidle.1
  simpa [hnil, pending] using (hinv.faithful l).input

end

def served : List (Event Unit Unit Unit) :=
  [.registers () {.read}, .arrives () 7 [8, 9], .moves (.other .runOnce),
    .moves (.epollWait 0 0 [3]), .serves 2]

theorem served_reachable : ∃ s,
    Runs.exec (step modest (fun _ => 3) (2 * ·)) (.start fun _ => quiet) served = some s ∧
      (s.traffic ()).consumed = [7, 8, 9] ∧ s.Faithful () ∧ s.Told (fun _ => 3) () := by
  obtain ⟨s, hs⟩ : ∃ s,
      Runs.exec (step modest (fun _ => 3) (2 * ·)) (.start fun _ => quiet) served = some s :=
    ⟨_, rfl⟩
  have hat : At (zeroRing 4096) 12 0 0 := ⟨rfl, rfl, rfl, by decide, by decide⟩
  obtain ⟨hfaithful, htold, -⟩ :=
    reachable_faithful (fun _ => ⟨12, 0, hat⟩) (fun _ => ⟨12, 0, hat⟩) ⟨served, hs⟩ ()
  refine ⟨s, hs, ?_, hfaithful, htold⟩
  obtain rfl := Option.some.inj hs
  rfl

end Service

end Flyzero.TcpConnection
