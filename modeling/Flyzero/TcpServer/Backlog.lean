import Flyzero.EventDispatch.EdgeTriggered
import Flyzero.TcpServer

/-! `tcp_server`s that a dispatcher serves: who will accept the connections that wait. -/
namespace Flyzero.TcpServer
open EventDispatch (Reactor Move Ready Epoll)
open FileDescriptor (World Tight)

/-- A connection that the kernel has taken off the queue of a socket, and whether `accept4` has
returned it. -/
structure Taken where
  addr : List UInt8
  returned : Bool

/-- The dispatcher, the descriptors beside those that are listened on, and the connections of each
server: all so far, those that are taken, and those that wait. -/
structure Front (ι κ τ : Type*) where
  reactor : Reactor ι κ τ
  world : World
  calling : Bool
  connected : ι → List (List UInt8)
  taken : ι → List Taken
  waiting : ι → List (List UInt8)

inductive Event (ι κ τ : Type*) where
  | connects (l : ι) (addr : List UInt8)
  /-- The kernel drops a connection that broke before it was accepted. -/
  | aborts (l : ι)
  | registers (l : ι) (events : Finset Ready)
  | accepts (n : Int)
  | uses (op : FileDescriptor.Op)
  | ends (throws : Bool)
  | stops (stop : Stop)
  | moves (move : Move ι κ τ)

namespace Front
variable {ι κ τ : Type*}

def start : Front ι κ τ where
  reactor := .start
  world := .start
  calling := false
  connected _ := []
  taken _ := []
  waiting _ := []

def polls (s : Front ι κ τ) (l : ι) : Finset Ready := if s.waiting l = [] then ∅ else {.read}

section
variable (server : ι → Bool)

def serving (s : Front ι κ τ) : Option ι :=
  match s.reactor.dispatcher.running with
  | some (l, .read) => if server l then some l else none
  | _ => none

def foreign (s : Front ι κ τ) : Move ι κ τ → Bool
  | .registerIo l _ => !server l
  | .wakes n _ | .drains n _ => !(s.reactor.dispatcher.interest n).any server
  | .other (.returns _) | .other .throws => (s.serving server).isNone
  | _ => true

variable [DecidableEq ι] [DecidableEq κ] (fd : ι → Int) (grow : Nat → Nat) (sock : Nat)

/-- The kernel follows the queue of a socket that is registered. -/
def follows (s : Front ι κ τ) (l : ι) (change : Epoll → Int → Epoll) : Reactor ι κ τ :=
  if s.reactor.dispatcher.interest (fd l) = some l then
    { s.reactor with epoll := change s.reactor.epoll (fd l) }
  else s.reactor

def take (s : Front ι κ τ) (l : ι) (addr : List UInt8) (rest : List (List UInt8))
    (returned : Bool) : Front ι κ τ :=
  { s with
    reactor := if rest = [] then s.follows fd l (·.drain · .read) else s.reactor
    taken := Function.update s.taken l (s.taken l ++ [{ addr, returned }])
    waiting := Function.update s.waiting l rest }

def step (s : Front ι κ τ) : Event ι κ τ → Option (Front ι κ τ)
  | .connects l addr =>
    if server l then
      some { s with
        reactor := s.follows fd l (·.wake · true .read)
        connected := Function.update s.connected l (s.connected l ++ [addr])
        waiting := Function.update s.waiting l (s.waiting l ++ [addr]) }
    else none
  | .aborts l =>
    match s.waiting l with
    | [] => none
    | addr :: rest => some (s.take fd l addr rest false)
  | .registers l events =>
    if server l then
      let polled := Function.update s.reactor.epoll.polled (fd l) (s.polls l)
      (Reactor.step fd grow { s.reactor with epoll := { s.reactor.epoll with polled } }
        (.registerIo l events)).map fun reactor => { s with reactor }
    else none
  | .accepts n =>
    match s.serving server, s.calling with
    | some l, false =>
      match s.waiting l with
      | [] => none
      | addr :: rest =>
        (FileDescriptor.step s.world (.opens n)).bind fun w =>
          (FileDescriptor.step w (.construct sock n)).map fun w =>
            { s.take fd l addr rest true with world := w, calling := true }
    | _, _ => none
  | .uses op => (FileDescriptor.step s.world op).map fun world => { s with world }
  | .ends throws =>
    match s.serving server, s.calling with
    | some _, true =>
      (FileDescriptor.step s.world (.destroy sock)).bind fun w =>
        if throws then
          (s.reactor.step fd grow (.other .throws)).map fun reactor =>
            { s with reactor, world := w, calling := false }
        else some { s with world := w, calling := false }
    | _, _ => none
  | .stops stop =>
    match s.serving server, s.calling with
    | some l, false =>
      if stop = .again ∧ s.waiting l ≠ [] then none
      else
        (FileDescriptor.step s.world (.construct sock (-1))).bind fun w =>
          (FileDescriptor.step w (.destroy sock)).bind fun w =>
            (s.reactor.step fd grow
              (.other (match stop with | .again => .returns true | .error => .throws))).map
              fun reactor => { s with reactor, world := w }
    | _, _ => none
  | .moves move =>
    if s.foreign server move then
      (s.reactor.step fd grow move).map fun reactor => { s with reactor }
    else none

end

/-- A registered server has a connection that waits, and no edge is going to tell. -/
def Unheard (fd : ι → Int) (s : Front ι κ τ) (l : ι) : Prop :=
  s.reactor.dispatcher.interest (fd l) = some l ∧ .read ∈ s.reactor.epoll.events (fd l) ∧
    s.waiting l ≠ [] ∧ fd l ∉ s.reactor.epoll.readyList

/-- Then it is being called, or will be by this batch. -/
def Told (fd : ι → Int) (s : Front ι κ τ) (l : ι) : Prop :=
  s.Unheard fd l → (l, .read) ∈ s.reactor.dispatcher.calls

def breaks : Event ι κ τ → Bool
  | .ends true | .stops .error | .moves (.other .throws) => true
  | _ => false

/-- An exception ends the batch when no server needs its calls. -/
def Spares (server : ι → Bool) (fd : ι → Int) (s : Front ι κ τ) (event : Event ι κ τ) : Prop :=
  breaks event = true → ∀ l, server l → (l, .read) ∈ s.reactor.dispatcher.calls → ¬ s.Unheard fd l

structure Inv (server : ι → Bool) (fd : ι → Int) (s : Front ι κ τ) : Prop where
  orderly : s.reactor.Orderly fd
  polled : ∀ l, server l → s.reactor.dispatcher.interest (fd l) = some l →
    (.read ∈ s.reactor.epoll.polled (fd l) ↔ s.waiting l ≠ [])
  ledger : ∀ l, (s.taken l).map (·.addr) ++ s.waiting l = s.connected l
  tight : Tight s.world

section
variable {server : ι → Bool} {fd : ι → Int} {s t : Front ι κ τ} {l l' : ι}

theorem Inv.told_iff (h : Inv server fd s) (hl : server l) :
    (s.Unheard fd l ↔ s.reactor.Unlisted (l, .read)) ∧
      (s.Told fd l ↔ s.reactor.Hears (l, .read)) := by
  have hiff : s.Unheard fd l ↔ s.reactor.Unlisted (l, .read) := by
    constructor
    · intro hunheard
      obtain ⟨hinterest, hevents, hwaiting, hlisted⟩ := hunheard
      exact ⟨fd l, hinterest, hevents, (h.polled l hl hinterest).mpr hwaiting, hlisted⟩
    · intro hunlisted
      obtain ⟨n, hinterest, hevents, hpolled, hlisted⟩ := hunlisted
      obtain rfl : fd l = n := h.orderly.interest n l hinterest
      exact ⟨hinterest, hevents, (h.polled l hl hinterest).mp hpolled, hlisted⟩
  simp only [hiff, Told, Reactor.Hears, true_and]

theorem start_inv : Inv server fd (start : Front ι κ τ) :=
  ⟨⟨List.nodup_nil, nofun⟩, nofun, fun _ => rfl, FileDescriptor.start_tight⟩

theorem world_inv {world : World} {calling : Bool} (h : Inv server fd s) (htight : Tight world) :
    Inv server fd { s with world, calling } := ⟨h.orderly, h.polled, h.ledger, htight⟩

theorem throws_of_breaks {move : Move ι κ τ} (h : breaks (.moves move) = true) :
    move = .other .throws := by
  unfold breaks at h
  split at h
  · contradiction
  · contradiction
  · rename_i hmove
    exact Event.moves.inj hmove
  · cases h

theorem serving_eq_some (h : s.serving server = some l) :
    server l = true ∧ s.reactor.dispatcher.running = some (l, .read) := by
  unfold serving at h
  split at h
  · rename_i l' hrunning
    obtain ⟨hserver, h⟩ := Option.ite_none_right_eq_some.mp h
    cases h
    exact ⟨hserver, hrunning⟩
  · cases h

theorem ended_foreign {move : Move ι κ τ} (hforeign : s.foreign server move = true)
    (hthrows : move ≠ .other .throws) (hl : server l) : (l, .read) ∉ s.reactor.ended move := by
  intro hended
  unfold Reactor.ended at hended
  split at hended
  · have hrunning : s.reactor.dispatcher.running = some (l, .read) := by simpa using hended
    simp [foreign, serving, hrunning, hl] at hforeign
  · exact hthrows rfl
  · cases hended

variable [DecidableEq ι]

@[simp] theorem follows_dispatcher {change : Epoll → Int → Epoll} :
    (s.follows fd l change).dispatcher = s.reactor.dispatcher := by
  unfold follows
  split <;> rfl

/-- An edge or the end of a queue leaves nobody behind. -/
theorem follows_moves [DecidableEq κ] {change : Epoll → Int → Epoll}
    (hchange : change = (·.wake · true .read) ∨ change = (·.drain · .read))
    (hr : s.reactor.Orderly fd) : (s.follows fd l change).Orderly fd ∧
      ∀ call, s.reactor.Hears call → (s.follows fd l change).Hears call := by
  by_cases hl : s.reactor.dispatcher.interest (fd l) = some l
  · obtain ⟨move, hended, hstep⟩ : ∃ move, s.reactor.ended move = [] ∧
        s.reactor.step fd id move = some (s.follows fd l change) := by
      obtain rfl | rfl := hchange
      · exact ⟨.wakes (fd l) .read, rfl, by simp [Reactor.step, follows, hl]⟩
      · exact ⟨.drains (fd l) .read, rfl, by simp [Reactor.step, follows, hl]⟩
    refine ⟨Reactor.step_orderly hstep hr, fun call hcall => ?_⟩
    exact (Reactor.step_hears hstep hr hcall).mpr (by simp [hended])
  · have hsame : s.follows fd l change = s.reactor := if_neg hl
    rw [hsame]
    exact ⟨hr, fun call hcall => hcall⟩

theorem polled_wake (hl' : s.reactor.dispatcher.interest (fd l') = some l') :
    .read ∈ (s.follows fd l (·.wake · true .read)).epoll.polled (fd l') ↔
      l' = l ∨ .read ∈ s.reactor.epoll.polled (fd l') := by
  unfold follows
  by_cases hl : s.reactor.dispatcher.interest (fd l) = some l
  · rw [if_pos hl]
    by_cases hfd : fd l' = fd l
    · obtain rfl : l' = l := by simpa [hfd, hl] using hl'.symm
      simp [Epoll.wake]
    · have hne : l' ≠ l := fun heq => hfd (congrArg fd heq)
      simp [Epoll.wake, hfd, hne]
  · have hne : l' ≠ l := fun heq => hl (heq ▸ hl')
    simp [hl, hne]

theorem polled_drain (hl' : s.reactor.dispatcher.interest (fd l') = some l') :
    .read ∈ (s.follows fd l (·.drain · .read)).epoll.polled (fd l') ↔
      l' ≠ l ∧ .read ∈ s.reactor.epoll.polled (fd l') := by
  unfold follows
  by_cases hl : s.reactor.dispatcher.interest (fd l) = some l
  · rw [if_pos hl]
    by_cases hfd : fd l' = fd l
    · obtain rfl : l' = l := by simpa [hfd, hl] using hl'.symm
      simp [Epoll.drain]
    · have hne : l' ≠ l := fun heq => hfd (congrArg fd heq)
      simp [Epoll.drain, hfd, hne]
  · have hne : l' ≠ l := fun heq => hl (heq ▸ hl')
    simp [hl, hne]

theorem connects_inv [DecidableEq κ] {addr : List UInt8} (h : Inv server fd s) :
    Inv server fd { s with
      reactor := s.follows fd l (·.wake · true .read)
      connected := Function.update s.connected l (s.connected l ++ [addr])
      waiting := Function.update s.waiting l (s.waiting l ++ [addr]) } := by
  refine ⟨(follows_moves (.inl rfl) h.orderly).1, fun l' hserver hl' => ?_, fun l' => ?_, h.tight⟩
  · rw [follows_dispatcher] at hl'
    rw [polled_wake hl']
    by_cases heq : l' = l
    · simp [heq]
    · simp [heq, h.polled l' hserver hl']
  · by_cases heq : l' = l
    · simp [heq, ← h.ledger l]
    · simp [heq, h.ledger l']

theorem take_inv [DecidableEq κ] {addr : List UInt8} {rest : List (List UInt8)} {returned : Bool}
    (h : Inv server fd s) (hwaiting : s.waiting l = addr :: rest) :
    Inv server fd (s.take fd l addr rest returned) := by
  unfold take
  refine ⟨?_, fun l' hserver hl' => ?_, fun l' => ?_, h.tight⟩
  · dsimp only
    split
    · exact (follows_moves (.inr rfl) h.orderly).1
    · exact h.orderly
  · have hinterest : s.reactor.dispatcher.interest (fd l') = some l' := by
      dsimp only at hl'
      split at hl'
      · rwa [follows_dispatcher] at hl'
      · exact hl'
    have hpolled := h.polled l' hserver hinterest
    dsimp only
    split
    · rename_i hrest
      rw [polled_drain hinterest]
      by_cases heq : l' = l
      · simp [heq, hrest]
      · simp [heq, hpolled]
    · rename_i hrest
      by_cases heq : l' = l
      · subst heq
        simp [hpolled, hwaiting, hrest]
      · simp [heq, hpolled]
  · by_cases heq : l' = l
    · simp [heq, ← h.ledger l, hwaiting]
    · simp [heq, h.ledger l']

theorem take_hears [DecidableEq κ] (addr : List UInt8) (rest : List (List UInt8))
    (returned : Bool) {call : ι × Ready} (hr : s.reactor.Orderly fd) (h : s.reactor.Hears call) :
    (s.take fd l addr rest returned).reactor.Hears call := by
  unfold take
  dsimp only
  split
  · exact (follows_moves (.inr rfl) hr).2 call h
  · exact h

variable [DecidableEq κ] {grow : Nat → Nat} {sock : Nat} {reactor : Reactor ι κ τ}

theorem other_inv {op : EventDispatch.Op ι κ τ} (h : Inv server fd s)
    (hstep : s.reactor.step fd grow (.other op) = some reactor) :
    Inv server fd { s with reactor } := by
  refine ⟨Reactor.step_orderly hstep h.orderly, fun l hserver hl => ?_, h.ledger, h.tight⟩
  cases Reactor.step_moves hstep with
  | ends _ hinterest =>
    rw [hinterest] at hl
    exact h.polled l hserver hl
  | @forgets n op d _ _ hinterest =>
    rw [hinterest] at hl
    by_cases hn : fd l = n
    · simp [hn] at hl
    · rw [Function.update_of_ne hn] at hl
      exact h.polled l hserver hl

theorem moves_inv {move : Move ι κ τ} (h : Inv server fd s)
    (hforeign : s.foreign server move = true)
    (hstep : s.reactor.step fd grow move = some reactor) : Inv server fd { s with reactor } := by
  have horderly := Reactor.step_orderly hstep h.orderly
  cases Reactor.step_moves hstep with
  | @registerIo l events d hcalls hinterest =>
    have hnot : server l = false := by simpa [foreign] using hforeign
    refine ⟨horderly, fun l' hserver hl' => ?_, h.ledger, h.tight⟩
    rw [hinterest] at hl'
    by_cases hfd : fd l' = fd l
    · rw [hfd, Function.update_self] at hl'
      cases hl'
      simp [hnot] at hserver
    · rw [Function.update_of_ne hfd] at hl'
      exact h.polled l' hserver hl'
  | epollWait _ _ _ hinterest =>
    refine ⟨horderly, fun l hserver hl => ?_, h.ledger, h.tight⟩
    rw [hinterest] at hl
    exact h.polled l hserver hl
  | @wakes n event | @drains n event =>
    refine ⟨horderly, fun l hserver hl => ?_, h.ledger, h.tight⟩
    have hn : fd l ≠ n := by
      intro heq
      have hregistered : s.reactor.dispatcher.interest n = some l := heq ▸ hl
      simp [foreign, hregistered, hserver] at hforeign
    simpa [Epoll.wake, Epoll.drain, hn] using h.polled l hserver hl
  | forgets | ends => exact other_inv h hstep

/-- `EPOLL_CTL_ADD` polls the socket; nobody was registered for its descriptor. -/
theorem registers_inv {events : Finset Ready} (h : Inv server fd s)
    (hstep : Reactor.step fd grow
      { s.reactor with epoll.polled := Function.update s.reactor.epoll.polled (fd l) (s.polls l) }
      (.registerIo l events) = some reactor) :
    Inv server fd { s with reactor } ∧
      ∀ call, s.reactor.Hears call → reactor.Hears call := by
  have hfree := Reactor.registerIo_free hstep
  have horderly : Reactor.Orderly fd { s.reactor with
      epoll.polled := Function.update s.reactor.epoll.polled (fd l) (s.polls l) } :=
    ⟨h.orderly.nodup, h.orderly.interest⟩
  refine ⟨⟨Reactor.step_orderly hstep horderly, fun l' hserver hl' => ?_, h.ledger, h.tight⟩,
    fun call hcall => (Reactor.step_hears hstep horderly ?_).mpr nofun⟩
  · cases Reactor.step_moves hstep with
    | registerIo _ hinterest =>
      rw [hinterest] at hl'
      by_cases hfd : fd l' = fd l
      · rw [hfd, Function.update_self] at hl'
        cases hl'
        by_cases hnil : s.waiting l = [] <;> simp [Epoll.add, polls, hnil]
      · rw [Function.update_of_ne hfd] at hl'
        simpa [Epoll.add, hfd] using h.polled l' hserver hl'
  · intro hunlisted
    obtain ⟨n, hn, hevents, hpolled, hlisted⟩ := hunlisted
    have hfd : n ≠ fd l := by
      intro heq
      subst heq
      cases hn.symm.trans hfree
    refine hcall ⟨n, hn, hevents, ?_, hlisted⟩
    simpa [hfd] using hpolled

theorem throws_told (h : Inv server fd s) (hs : ∀ l, server l → s.Told fd l) {world : World}
    {calling : Bool} (hstep : s.reactor.step fd grow (.other .throws) = some reactor)
    (ht : Inv server fd { s with reactor, world, calling }) :
    (∀ l, server l → Told fd { s with reactor, world, calling } l) ↔
      ∀ l, server l → (l, .read) ∈ s.reactor.dispatcher.calls → ¬ s.Unheard fd l := by
  refine forall_congr' fun l => forall_congr' fun hl => ?_
  rw [(ht.told_iff hl).2, (h.told_iff hl).1]
  exact Reactor.step_hears hstep h.orderly ((h.told_iff hl).2.mp (hs l hl))

/-- The steps, by what becomes of the dispatcher. -/
inductive Step (server : ι → Bool) (fd : ι → Int) (grow : Nat → Nat) (s : Front ι κ τ) :
    Event ι κ τ → Front ι κ τ → Prop
  | connects {l addr} : Step server fd grow s (.connects l addr)
    { s with
      reactor := s.follows fd l (·.wake · true .read)
      connected := Function.update s.connected l (s.connected l ++ [addr])
      waiting := Function.update s.waiting l (s.waiting l ++ [addr]) }
  | takes {event l addr rest returned world calling} (hreturns : breaks event = false)
    (hwaiting : s.waiting l = addr :: rest) (htight : Tight s.world → Tight world) :
    Step server fd grow s event { s.take fd l addr rest returned with world, calling }
  | registers {l events reactor} (h : Reactor.step fd grow
      { s.reactor with epoll.polled := Function.update s.reactor.epoll.polled (fd l) (s.polls l) }
      (.registerIo l events) = some reactor) :
    Step server fd grow s (.registers l events) { s with reactor }
  | goes {event world calling} (hreturns : breaks event = false)
    (htight : Tight s.world → Tight world) :
    Step server fd grow s event { s with world, calling }
  | returns {event l reactor world} (hreturns : breaks event = false)
    (hserving : s.serving server = some l) (hempty : s.waiting l = [])
    (htight : Tight s.world → Tight world)
    (h : s.reactor.step fd grow (.other (.returns true)) = some reactor) :
    Step server fd grow s event { s with reactor, world }
  | throws {event reactor world calling} (hbreaks : breaks event = true)
    (htight : Tight s.world → Tight world)
    (h : s.reactor.step fd grow (.other .throws) = some reactor) :
    Step server fd grow s event { s with reactor, world, calling }
  | moves {move reactor} (hthrows : move ≠ .other .throws)
    (hforeign : s.foreign server move = true) (h : s.reactor.step fd grow move = some reactor) :
    Step server fd grow s (.moves move) { s with reactor }

variable {event : Event ι κ τ}

theorem step_cases (h : s.step server fd grow sock event = some t) :
    Step server fd grow s event t := by
  have hworld {w w' : World} {op : FileDescriptor.Op} (hw : FileDescriptor.step w op = some w')
      (ht : Tight w) : Tight w' := FileDescriptor.step_tight w op w' hw ht
  cases event with
  | connects l addr =>
    obtain ⟨-, h⟩ := Option.ite_none_right_eq_some.mp h
    cases h
    exact .connects
  | aborts l =>
    simp only [step] at h
    split at h
    · cases h
    · rename_i hwaiting
      cases h
      exact .takes rfl hwaiting id
  | registers l events =>
    obtain ⟨-, h⟩ := Option.ite_none_right_eq_some.mp h
    obtain ⟨reactor, hreactor, rfl⟩ := Option.map_eq_some_iff.mp h
    exact .registers hreactor
  | accepts n =>
    simp only [step] at h
    split at h
    · split at h
      · cases h
      · rename_i hwaiting
        obtain ⟨w₁, h₁, h⟩ := Option.bind_eq_some_iff.mp h
        obtain ⟨w₂, h₂, rfl⟩ := Option.map_eq_some_iff.mp h
        exact .takes rfl hwaiting fun ht => hworld h₂ (hworld h₁ ht)
    · cases h
  | uses op =>
    obtain ⟨world, hop, rfl⟩ := Option.map_eq_some_iff.mp h
    exact .goes rfl (hworld hop)
  | ends throws =>
    simp only [step] at h
    split at h
    · obtain ⟨w, hw, h⟩ := Option.bind_eq_some_iff.mp h
      cases throws with
      | true =>
        obtain ⟨reactor, hreactor, rfl⟩ := Option.map_eq_some_iff.mp h
        exact .throws rfl (hworld hw) hreactor
      | false =>
        cases h
        exact .goes rfl (hworld hw)
    · cases h
  | stops stop =>
    simp only [step] at h
    split at h
    · rename_i hserving hcalling
      obtain ⟨hempty, h⟩ := Option.ite_none_left_eq_some.mp h
      obtain ⟨w₁, h₁, h⟩ := Option.bind_eq_some_iff.mp h
      obtain ⟨w₂, h₂, h⟩ := Option.bind_eq_some_iff.mp h
      obtain ⟨reactor, hreactor, rfl⟩ := Option.map_eq_some_iff.mp h
      have htight (ht : Tight s.world) : Tight w₂ := hworld h₂ (hworld h₁ ht)
      cases stop with
      | again => exact .returns rfl hserving (by simpa using hempty) htight hreactor
      | error => exact .throws rfl htight hreactor
    · cases h
  | moves move =>
    obtain ⟨hforeign, h⟩ := Option.ite_none_right_eq_some.mp h
    obtain ⟨reactor, hreactor, rfl⟩ := Option.map_eq_some_iff.mp h
    by_cases hthrows : move = .other .throws
    · subst hthrows
      exact .throws rfl id hreactor
    · exact .moves hthrows hforeign hreactor

theorem step_inv (h : Inv server fd s) (hstep : s.step server fd grow sock event = some t) :
    Inv server fd t := by
  cases step_cases hstep with
  | connects => exact connects_inv h
  | takes _ hwaiting htight => exact world_inv (take_inv h hwaiting) (htight h.tight)
  | registers hreactor => exact (registers_inv h hreactor).1
  | goes _ htight => exact world_inv h (htight h.tight)
  | returns _ _ _ htight hreactor | throws _ htight hreactor =>
    exact world_inv (other_inv h hreactor) (htight h.tight)
  | moves _ hforeign hreactor => exact moves_inv h hforeign hreactor

/-- A server that is told stays so, unless an exception ends the batch. -/
theorem step_hears (h : Inv server fd s) (hstep : s.step server fd grow sock event = some t)
    (hreturns : breaks event = false) {l : ι} (hl : server l)
    (hears : s.reactor.Hears (l, .read)) : t.reactor.Hears (l, .read) := by
  cases step_cases hstep with
  | connects => exact (follows_moves (.inl rfl) h.orderly).2 _ hears
  | @takes _ _ addr rest returned => exact take_hears addr rest returned h.orderly hears
  | registers hreactor => exact (registers_inv h hreactor).2 _ hears
  | goes => exact hears
  | returns _ hserving hempty _ hreactor =>
    refine (Reactor.step_hears hreactor h.orderly hears).mpr fun hended => ?_
    -- the call that returns is one of the server whose queue is empty
    have hrunning := (serving_eq_some hserving).2
    simp only [Reactor.ended, hrunning, Option.toList_some, List.mem_singleton, Prod.mk.injEq,
      and_true] at hended
    subst hended
    rw [← (h.told_iff hl).1]
    exact fun hunheard => hunheard.2.2.1 hempty
  | throws hbreaks => exact absurd (hreturns.symm.trans hbreaks) Bool.false_ne_true
  | moves hthrows hforeign hreactor =>
    refine (Reactor.step_hears hreactor h.orderly hears).mpr fun hended => ?_
    exact absurd hended (ended_foreign hforeign hthrows hl)

theorem step_told (h : Inv server fd s) (hs : ∀ l, server l → s.Told fd l)
    (hstep : s.step server fd grow sock event = some t) :
    (∀ l, server l → t.Told fd l) ↔ Spares server fd s event := by
  have ht := step_inv h hstep
  cases hbreaks : breaks event with
  | false =>
    refine iff_of_true (fun l hl => ?_) fun h => absurd h (by simp [hbreaks])
    exact (ht.told_iff hl).2.mpr (step_hears h hstep hbreaks hl ((h.told_iff hl).2.mp (hs l hl)))
  | true =>
    rw [Spares, hbreaks, imp_iff_right rfl]
    cases step_cases hstep with
    | throws _ _ hreactor => exact throws_told h hs hreactor ht
    | connects | registers => cases hbreaks
    | takes hreturns | goes hreturns | returns hreturns =>
      exact absurd (hreturns.symm.trans hbreaks) Bool.false_ne_true
    | moves hthrows => exact absurd (throws_of_breaks hbreaks) hthrows

omit [DecidableEq κ] in
theorem take_dispatcher (addr : List UInt8) (rest : List (List UInt8)) (returned : Bool) :
    (s.take fd l addr rest returned).reactor.dispatcher = s.reactor.dispatcher := by
  unfold take
  dsimp only
  split
  · exact follows_dispatcher
  · rfl

omit [DecidableEq κ] in
theorem serving_take (addr : List UInt8) (rest : List (List UInt8)) (returned : Bool)
    {world : World} {calling : Bool} :
    serving server { s.take fd l addr rest returned with world, calling } = s.serving server := by
  simp only [serving, take_dispatcher]

theorem serving_ends (h : s.serving server = some l) : ∃ returned thrown,
    s.reactor.step fd grow (.other (.returns true)) = some returned ∧
      s.reactor.step fd grow (.other .throws) = some thrown := by
  have hrunning := (serving_eq_some h).2
  unfold EventDispatch.Dispatcher.running at hrunning
  split at hrunning
  · rename_i hphase
    exact ⟨_, _, by simp only [Reactor.step, EventDispatch.step, hphase]; rfl,
      by simp only [Reactor.step, EventDispatch.step, hphase]; rfl⟩
  · simp at hrunning
  · cases hrunning

theorem exec_uses {uses : List FileDescriptor.Op} {w : World}
    (h : Runs.exec FileDescriptor.step s.world uses = some w) :
    Runs.exec (step server fd grow sock) s (uses.map .uses) = some { s with world := w } := by
  induction uses generalizing s with
  | nil =>
    cases h
    rfl
  | cons op uses ih =>
    obtain ⟨w', hw', h⟩ := Runs.exec_cons.mp h
    rw [List.map_cons, Runs.exec_cons]
    exact ⟨{ s with world := w' }, by rw [step, hw', Option.map_some], ih h⟩

def rounds (stop : Stop) : List Accepted → List (Event ι κ τ)
  | [] => [.stops stop]
  | c :: backlog =>
    (.accepts c.fd :: c.uses.map .uses) ++
      .ends c.throws :: if c.throws then [] else rounds stop backlog

theorem accepts_run {c : Accepted} {next : List (List UInt8)} {w₁ w₂ w₃ : World}
    (hserving : s.serving server = some l) (hcalling : s.calling = false)
    (hnext : s.waiting l = c.addr :: next)
    (hopens : FileDescriptor.step s.world (.opens c.fd) = some w₁)
    (hconstruct : FileDescriptor.step w₁ (.construct sock c.fd) = some w₂)
    (huses : Runs.exec FileDescriptor.step w₂ c.uses = some w₃) :
    ∃ u, Runs.exec (step server fd grow sock) s (.accepts c.fd :: c.uses.map .uses) = some u ∧
      u.serving server = some l ∧ u.calling = true ∧ u.world = w₃ ∧ u.waiting l = next ∧
      u.taken l = s.taken l ++ [{ addr := c.addr, returned := true }] := by
  let u : Front ι κ τ := { s.take fd l c.addr next true with world := w₂, calling := true }
  have haccepts : s.step server fd grow sock (.accepts c.fd) = some u := by
    simp only [step, hserving, hcalling, hnext]
    rw [hopens, Option.bind_some, hconstruct, Option.map_some]
  have hu : Runs.exec (step server fd grow sock) u (c.uses.map .uses) =
      some { u with world := w₃ } := exec_uses huses
  refine ⟨{ u with world := w₃ }, Runs.exec_cons.mpr ⟨u, haccepts, hu⟩,
    (serving_take ..).trans hserving, rfl, rfl, ?_, ?_⟩
  · simp [u, take]
  · simp [u, take]

/-- A call of `on_read` runs through its rounds, whose connections are the first that wait. -/
theorem onRead_rounds {stop : Stop} {backlog : List Accepted} {rest : List (List UInt8)}
    {r : Accepting} (hserving : s.serving server = some l) (hcalling : s.calling = false)
    (hwaiting : s.waiting l = (called backlog).map (·.addr) ++ rest)
    (hstop : stop = .again → (∀ c ∈ backlog, c.throws = false) → rest = [])
    (h : onRead sock stop backlog s.world = some r) :
    ∃ t, Runs.exec (step server fd grow sock) s (rounds stop backlog) = some t ∧
      t.world = r.world ∧ t.waiting l = rest ∧
      t.taken l = s.taken l ++ r.accepts.map fun a => { addr := a.2, returned := true } := by
  induction backlog generalizing s r with
  | nil =>
    obtain ⟨w₁, h₁, h⟩ := Option.bind_eq_some_iff.mp h
    obtain ⟨w₂, h₂, rfl⟩ := Option.map_eq_some_iff.mp h
    have hempty : ¬ (stop = .again ∧ s.waiting l ≠ []) := by
      rintro ⟨hagain, hne⟩
      exact hne (hwaiting.trans (hstop hagain nofun))
    obtain ⟨returned, thrown, hreturned, hthrown⟩ := serving_ends hserving
    have hends : ∃ reactor, s.reactor.step fd grow
        (.other (match stop with | .again => .returns true | .error => .throws)) =
          some reactor := by
      cases stop with
      | again => exact ⟨returned, hreturned⟩
      | error => exact ⟨thrown, hthrown⟩
    obtain ⟨reactor, hreactor⟩ := hends
    refine ⟨{ s with reactor, world := w₂ }, ?_, rfl, hwaiting, (List.append_nil _).symm⟩
    simp only [rounds, Runs.exec, step, hserving, hcalling]
    rw [if_neg hempty, h₁, Option.bind_some, h₂, Option.bind_some, hreactor]
    rfl
  | cons c backlog ih =>
    obtain ⟨w₁, h₁, h⟩ := Option.bind_eq_some_iff.mp h
    obtain ⟨w₂, h₂, h⟩ := Option.bind_eq_some_iff.mp h
    obtain ⟨w₃, h₃, h⟩ := Option.bind_eq_some_iff.mp h
    obtain ⟨w₄, h₄, h⟩ := Option.bind_eq_some_iff.mp h
    by_cases hthrows : c.throws = true
    · rw [if_pos hthrows] at h
      cases h
      rw [called, if_pos hthrows] at hwaiting
      obtain ⟨u, hu, hserving', hcalling', hworld, hleft, htaken⟩ :=
        accepts_run hserving hcalling hwaiting h₁ h₂ h₃
      obtain ⟨-, thrown, -, hthrown⟩ := serving_ends hserving'
      have hends : u.step server fd grow sock (.ends c.throws) =
          some { u with reactor := thrown, world := w₄, calling := false } := by
        simp only [step, hserving', hcalling', hworld, hthrows]
        rw [h₄, Option.bind_some, if_pos trivial, hthrown, Option.map_some]
      refine ⟨{ u with reactor := thrown, world := w₄, calling := false }, ?_, rfl, hleft, htaken⟩
      rw [rounds, Runs.exec_append, hu, Option.bind_some, Runs.exec, hends, if_pos hthrows]
      rfl
    · rw [if_neg hthrows] at h
      obtain ⟨r', hr', rfl⟩ := Option.map_eq_some_iff.mp h
      rw [called, if_neg hthrows] at hwaiting
      obtain ⟨u, hu, hserving', hcalling', hworld, hleft, htaken⟩ :=
        accepts_run hserving hcalling hwaiting h₁ h₂ h₃
      have hends : u.step server fd grow sock (.ends c.throws) =
          some { u with world := w₄, calling := false } := by
        simp only [step, hserving', hcalling', hworld, hthrows]
        rw [h₄, Option.bind_some]
        rfl
      have hlast : stop = .again → (∀ c ∈ backlog, c.throws = false) → rest = [] := by
        intro hagain hall
        exact hstop hagain (List.forall_mem_cons.mpr ⟨by simpa using hthrows, hall⟩)
      obtain ⟨t, ht, hworld', hrest, htaken'⟩ :=
        ih (s := { u with world := w₄, calling := false }) hserving' rfl hleft hlast hr'
      refine ⟨t, ?_, hworld', hrest, ?_⟩
      · rw [rounds, Runs.exec_append, hu, Option.bind_some, Runs.exec, hends, if_neg hthrows]
        exact ht
      · rw [htaken']
        simp [htaken]

/-- In every run, whatever connects, breaks, throws and fails at whatever time: the connections of
a server are taken in order or wait, no descriptor is lost or shared, and a registered server with
a connection that waits is always on the ready list or called, if and only if no exception ends a
batch that still has a call for such a server off the list. -/
theorem told_iff_spares {events : List (Event ι κ τ)}
    (hrun : Runs.exec (step server fd grow sock) start events = some s) :
    (∀ l, (s.taken l).map (·.addr) ++ s.waiting l = s.connected l) ∧ Tight s.world ∧
      ((∀ t, Runs.Visits (step server fd grow sock) start events t →
          ∀ l, server l → t.Told fd l) ↔
        Runs.Along (step server fd grow sock) (Spares server fd) start events) := by
  have hinv : Inv server fd s :=
    Runs.exec_invariant (fun u event t hstep hu => step_inv hu hstep) hrun start_inv
  refine ⟨hinv.ledger, hinv.tight, ?_⟩
  refine Runs.visits_iff_along (fun u event t hstep hu => step_inv hu hstep)
    (fun u event t hstep hu htold => step_told hu htold hstep) hrun start_inv fun l _ => ?_
  intro hunheard
  exact absurd rfl hunheard.2.2.1

end

def thrownAccept : List (Event Unit Unit Unit) :=
  [.registers () {.read}, .connects () [1], .connects () [2], .moves (.other .runOnce),
    .moves (.epollWait 0 0 [3]), .accepts 5, .ends true]

theorem thrownAccept_untold : ∃ s,
    Runs.exec (step (fun _ => true) (fun _ => 3) (2 * ·) 0) start thrownAccept = some s ∧
      s.taken () = [{ addr := [1], returned := true }] ∧ s.waiting () = [[2]] ∧ Tight s.world ∧
      ¬ ∀ t, Runs.Visits (step (fun _ => true) (fun _ => 3) (2 * ·) 0) start thrownAccept t →
        ∀ l, t.Told (fun _ => 3) l := by
  obtain ⟨s, hs⟩ : ∃ s,
      Runs.exec (step (fun _ => true) (fun _ => 3) (2 * ·) 0) start thrownAccept = some s :=
    ⟨_, rfl⟩
  obtain ⟨-, htight, hiff⟩ := told_iff_spares hs
  refine ⟨s, hs, ?_, ?_, htight, fun hall => ?_⟩
  · cases hs
    rfl
  · cases hs
    rfl
  · have halong : Runs.Along (step (fun _ => true) (fun _ => 3) (2 * ·) 0)
        (Spares (fun _ => true) fun _ => 3) start (thrownAccept.take 6 ++ [.ends true]) :=
      hiff.mp fun t ht l _ => hall t ht l
    have hspares := halong.holds rfl
    exact hspares rfl () rfl (List.mem_singleton_self _) ⟨rfl, by decide, by decide, by decide⟩

end Front

end Flyzero.TcpServer
