import Flyzero.FileDescriptor.Leak
import Flyzero.Lib.ByteMem
import Mathlib.Data.Finset.Basic

/-! `tcp_server`: the loop that accepts connections, and the sockets it listens on. -/
namespace Flyzero.TcpServer
open FileDescriptor (World Slot Op Tight step)

/-- A connection that `accept4` returns with the address of the peer, and what `on_accept` does with
descriptors until it returns or throws. -/
structure Accepted where
  fd : Int
  addr : List UInt8
  uses : List Op
  throws : Bool

/-- Why `accept4` returned no connection: `EAGAIN` or `EWOULDBLOCK`, or another error. -/
inductive Stop where
  | again | error
  deriving DecidableEq

inductive Outcome where
  | returned
  | threw
  | failed
  deriving DecidableEq

structure Accepting where
  outcome : Outcome
  accepts : List (Int × List UInt8)
  world : World

/-- The loop of `on_read` over the connections that wait; the local object `sock` has the number
`sock`. It is destroyed at the end of each round, and by the exceptions. -/
def onRead (sock : Nat) (stop : Stop) : List Accepted → World → Option Accepting
  | [], w =>
    (step w (.construct sock (-1))).bind fun w => (step w (.destroy sock)).map fun w =>
      { outcome := match stop with | .again => .returned | .error => .failed
        accepts := []
        world := w }
  | c :: backlog, w =>
    (step w (.opens c.fd)).bind fun w => (step w (.construct sock c.fd)).bind fun w =>
      (Runs.exec step w c.uses).bind fun w => (step w (.destroy sock)).bind fun w =>
        if c.throws then
          some { outcome := .threw, accepts := [(c.fd, c.addr)], world := w }
        else
          (onRead sock stop backlog w).map fun r =>
            { r with accepts := (c.fd, c.addr) :: r.accepts }

def called : List Accepted → List Accepted
  | [] => []
  | c :: backlog => if c.throws then [c] else c :: called backlog

/-- What a call of `on_read` has done when it has ended. -/
structure AcceptsDone (sock : Nat) (stop : Stop) (backlog : List Accepted) (r : Accepting) :
    Prop where
  tight : Tight r.world
  gone : r.world.fd (.object sock) = none
  owners : ∀ fd ∈ r.world.opened,
    Xor (fd ∈ r.world.caller) (∃! x, x ≠ .object sock ∧ r.world.Holds x fd)
  accepts : r.accepts = (called backlog).map fun c => (c.fd, c.addr)
  returned : r.outcome = .returned ↔ stop = .again ∧ ∀ c ∈ backlog, c.throws = false

section
variable {sock : Nat} {w w' : World} {stop : Stop} {backlog : List Accepted} {r : Accepting}

theorem destroy_gone (h : step w (.destroy sock) = some w') : w'.fd (.object sock) = none := by
  obtain ⟨fd, -, rfl⟩ := Option.map_eq_some_iff.mp h
  exact FileDescriptor.set_fd_self

theorem owners_of_gone (hw : Tight w) (hgone : w.fd (.object sock) = none) :
    ∀ fd ∈ w.opened, Xor (fd ∈ w.caller) (∃! x, x ≠ .object sock ∧ w.Holds x fd) := by
  intro fd hfd
  have hother (x : Slot) : x ≠ .object sock ∧ w.Holds x fd ↔ w.Holds x fd := by
    rw [and_iff_right_iff_imp]
    intro hx heq
    rw [heq, World.Holds, hgone] at hx
    cases hx.1
  simpa only [hother] using (hw.partition fd).mp hfd

/-- Whatever `on_accept` does with the descriptor it is given, and whether it throws or not, no
connection is lost: it has another owner than the loop, or it is closed. -/
theorem onRead_accepts (hw : Tight w) (h : onRead sock stop backlog w = some r) :
    AcceptsDone sock stop backlog r := by
  induction backlog generalizing w r with
  | nil =>
    obtain ⟨w₁, h₁, h⟩ := Option.bind_eq_some_iff.mp h
    obtain ⟨w₂, h₂, rfl⟩ := Option.map_eq_some_iff.mp h
    have ht₁ := FileDescriptor.step_tight w _ w₁ h₁ hw
    have ht₂ := FileDescriptor.step_tight w₁ _ w₂ h₂ ht₁
    have hgone := destroy_gone h₂
    refine ⟨ht₂, hgone, owners_of_gone ht₂ hgone, rfl, ?_⟩
    cases stop with
    | again => simp
    | error => simp
  | cons c backlog ih =>
    obtain ⟨w₁, h₁, h⟩ := Option.bind_eq_some_iff.mp h
    obtain ⟨w₂, h₂, h⟩ := Option.bind_eq_some_iff.mp h
    obtain ⟨w₃, h₃, h⟩ := Option.bind_eq_some_iff.mp h
    obtain ⟨w₄, h₄, h⟩ := Option.bind_eq_some_iff.mp h
    have ht₁ := FileDescriptor.step_tight w _ w₁ h₁ hw
    have ht₂ := FileDescriptor.step_tight w₁ _ w₂ h₂ ht₁
    have ht₃ : Tight w₃ := Runs.exec_invariant FileDescriptor.step_tight h₃ ht₂
    have ht₄ := FileDescriptor.step_tight w₃ _ w₄ h₄ ht₃
    split at h
    · rename_i hthrows
      cases h
      have hgone := destroy_gone h₄
      refine ⟨ht₄, hgone, owners_of_gone ht₄ hgone, ?_, ?_⟩
      · simp [called, hthrows]
      · simp [hthrows]
    · rename_i hthrows
      obtain ⟨r', hr', rfl⟩ := Option.map_eq_some_iff.mp h
      obtain ⟨htight, hgone, howners, haccepts, hreturned⟩ := ih ht₄ hr'
      refine ⟨htight, hgone, howners, ?_, ?_⟩
      · simp [called, hthrows, haccepts]
      · simp [hreturned, hthrows]

end

def threeConnections : List Accepted :=
  [⟨5, [2, 0], [.moveConstruct 1 0], false⟩, ⟨6, [2, 0], [], false⟩,
    ⟨6, [2, 0], [.release 0], true⟩, ⟨7, [2, 0], [], false⟩]

theorem threeConnections_done : ∃ r, onRead 0 .again threeConnections .start = some r ∧
    r.world.opened = {5, 6} ∧ AcceptsDone 0 .again threeConnections r := by
  obtain ⟨r, hr, hopened⟩ : ∃ r, onRead 0 .again threeConnections .start = some r ∧
      r.world.opened = {5, 6} := ⟨_, rfl, by decide⟩
  exact ⟨r, hr, hopened, onRead_accepts FileDescriptor.start_tight hr⟩

/-! The sockets to listen on. -/

structure Socket where
  domain : Nat
  flags : BitVec 32
  address : Option (List UInt8)
  backlog : Option Nat

structure Host where
  world : World
  sockets : Int → Option Socket
  paths : Finset (List UInt8)

def afInet : Nat := 2

/-- `__builtin_bswap16` and `__builtin_bswap32` -/
def bswap {w : Nat} (x : BitVec w) : BitVec w :=
  BitVec.ofNat w (ByteMem.ofBytes (ByteMem.toBytes (w / 8) x.toNat).reverse)

theorem toBytes_bswap {w n : Nat} (hw : w = 8 * n) (x : BitVec w) :
    ByteMem.toBytes n (bswap x).toNat = (ByteMem.toBytes n x.toNat).reverse := by
  have hdiv : w / 8 = n := by omega
  have hlen : (ByteMem.toBytes n x.toNat).reverse.length = n := by simp
  have hlt := ByteMem.ofBytes_lt (ByteMem.toBytes n x.toNat).reverse
  have hwidth : 256 ^ n = 2 ^ w := by rw [hw, Nat.pow_mul]
  rw [hlen, hwidth] at hlt
  have hsame := ByteMem.toBytes_ofBytes (ByteMem.toBytes n x.toNat).reverse
  rw [hlen] at hsame
  rw [bswap, hdiv, BitVec.toNat_ofNat, Nat.mod_eq_of_lt hlt, hsame]

def sockaddrIn (ip : BitVec 32) (port : BitVec 16) : List UInt8 :=
  ByteMem.toBytes 2 afInet ++ ByteMem.toBytes 2 (bswap port).toNat ++
    ByteMem.toBytes 4 (bswap ip).toNat ++ List.replicate 8 0

theorem sockaddrIn_bytes (ip : BitVec 32) (port : BitVec 16) : sockaddrIn ip port =
    [2, 0] ++ (ByteMem.toBytes 2 port.toNat).reverse ++ (ByteMem.toBytes 4 ip.toNat).reverse ++
      List.replicate 8 0 := by
  rw [sockaddrIn, toBytes_bswap rfl, toBytes_bswap rfl]
  rfl

namespace Host

def setSocket (h : Host) (fd : Int) (s : Socket) : Host :=
  { h with sockets := Function.update h.sockets fd (some s) }

def socket (h : Host) (sock domain : Nat) (ret : Int) : Option Host :=
  if ret = -1 then
    (step h.world (.construct sock (-1))).map fun w => { h with world := w }
  else
    (step h.world (.opens ret)).bind fun w => (step w (.construct sock ret)).map fun w =>
      { h with world := w }.setSocket ret
        { domain, flags := 0, address := none, backlog := none }

def unlink (h : Host) (path : List UInt8) : Host := { h with paths := h.paths.erase path }

/-- The address of a socket in the file system is a path of it. -/
def bind (h : Host) (fd : Int) (path : Option (List UInt8)) (address : List UInt8) : Host :=
  match h.sockets fd with
  | none => h
  | some s =>
    { h.setSocket fd { s with address := some address } with
      paths := match path with | none => h.paths | some path => insert path h.paths }

/-- `return sock.release()` -/
def handOver (h : Host) (sock : Nat) (fd : Int) : Option (Int × Host) :=
  (step h.world (.release sock)).bind fun w => (step w (.destroy sock)).map fun w =>
    (fd, { h with world := w })

end Host

structure Made (sock : Nat) (fd : Int) (h h' : Host) (s : Socket) : Prop where
  tight : Tight h'.world
  held : h'.world.fd (.object sock) = some fd
  pos : 0 ≤ fd
  fresh : fd ∉ h.world.opened
  opened : h'.world.opened = insert fd h.world.opened
  caller : h'.world.caller = h.world.caller
  sockets : h'.sockets = Function.update h.sockets fd (some s)

section
variable {sock domain : Nat} {fd : Int} {h h' : Host} {s : Socket} {r : Int × Host}

theorem Made.setSocket (hm : Made sock fd h h' s) (s' : Socket) :
    Made sock fd h (h'.setSocket fd s') s' := by
  refine ⟨hm.tight, hm.held, hm.pos, hm.fresh, hm.opened, hm.caller, ?_⟩
  rw [Host.setSocket, hm.sockets, Function.update_idem]

theorem Made.socket (hm : Made sock fd h h' s) : h'.sockets fd = some s := by
  rw [hm.sockets, Function.update_self]

end

section
variable {sock domain : Nat} {path : Option (List UInt8)} {address : List UInt8} {o : Answers}
  {h h' : Host} {s : Socket} {r : Int × Host}

end

end Flyzero.TcpServer
