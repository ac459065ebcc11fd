import Flyzero.Lib.ByteMem

/-! Readers that take from the front of their input exactly the bytes a writer gives. -/
namespace Codec
open ByteMem

abbrev Reader (α : Type*) := List UInt8 → Option (α × List UInt8)

section
variable {α β : Type*} {read : Reader α} {write : α → List UInt8} {Ok : α → Prop}

/-- What is read is a good value, and the input is what is written for it and the rest. -/
def Reads (read : Reader α) (write : α → List UInt8) (Ok : α → Prop) : Prop :=
  ∀ bs a rest, read bs = some (a, rest) ↔ Ok a ∧ bs = write a ++ rest

theorem Reads.read_write (h : Reads read write Ok) {a : α} (ha : Ok a) (rest : List UInt8) :
    read (write a ++ rest) = some (a, rest) :=
  (h _ _ _).mpr ⟨ha, rfl⟩

def andThen (read : Reader α) (next : α → Reader β) : Reader (α × β) := fun bs =>
  (read bs).bind fun r => (next r.1 r.2).map fun s => ((r.1, s.1), s.2)

theorem Reads.andThen {next : α → Reader β} {write' : α → β → List UInt8} {Ok' : α → β → Prop}
    (h : Reads read write Ok) (hnext : ∀ a, Reads (next a) (write' a) (Ok' a)) :
    Reads (andThen read next) (fun r => write r.1 ++ write' r.1 r.2)
      fun r => Ok r.1 ∧ Ok' r.1 r.2 := by
  rintro bs ⟨a, b⟩ rest
  rw [Codec.andThen, Option.bind_eq_some_iff]
  constructor
  · rintro ⟨⟨a', rest'⟩, ha, hrest⟩
    obtain ⟨⟨b', rest''⟩, hb, heq⟩ := Option.map_eq_some_iff.mp hrest
    cases heq
    obtain ⟨hok, rfl⟩ := (h _ _ _).mp ha
    obtain ⟨hok', hbytes⟩ := (hnext _ _ _ _).mp hb
    refine ⟨⟨hok, hok'⟩, ?_⟩
    dsimp only at hbytes ⊢
    rw [hbytes, List.append_assoc]
  · rintro ⟨⟨hok, hok'⟩, rfl⟩
    refine ⟨(a, write' a b ++ rest), ?_, ?_⟩
    · rw [List.append_assoc]
      exact h.read_write hok _
    · rw [(hnext a).read_write hok', Option.map_some]

theorem Reads.map (view : α → β) (back : β → α) (h : Reads read write Ok)
    (hback : ∀ a, Ok a → back (view a) = a) (hview : ∀ b, Ok (back b) → view (back b) = b) :
    Reads (fun bs => (read bs).map fun r => (view r.1, r.2)) (fun b => write (back b))
      fun b => Ok (back b) := by
  intro bs b rest
  rw [Option.map_eq_some_iff]
  constructor
  · rintro ⟨⟨a, rest'⟩, ha, heq⟩
    cases heq
    obtain ⟨hok, rfl⟩ := (h _ _ _).mp ha
    dsimp only
    rw [hback a hok]
    exact ⟨hok, rfl⟩
  · rintro ⟨hok, rfl⟩
    exact ⟨(back b, rest), h.read_write hok rest, by rw [hview b hok]⟩

def readList (read : Reader α) : Nat → Reader (List α)
  | 0, bs => some ([], bs)
  | n + 1, bs => (read bs).bind fun r => (readList read n r.2).map fun s => (r.1 :: s.1, s.2)

theorem Reads.list (h : Reads read write Ok) (n : Nat) :
    Reads (readList read n) (·.flatMap write) fun as => as.length = n ∧ ∀ a ∈ as, Ok a := by
  induction n with
  | zero =>
    intro bs as rest
    rw [readList]
    constructor
    · intro heq
      cases heq
      exact ⟨⟨rfl, nofun⟩, rfl⟩
    · rintro ⟨⟨hlen, -⟩, rfl⟩
      obtain rfl := List.length_eq_zero_iff.mp hlen
      rfl
  | succ n ih =>
    intro bs as rest
    rw [readList, Option.bind_eq_some_iff]
    constructor
    · rintro ⟨⟨a, rest'⟩, ha, hrest⟩
      obtain ⟨⟨as', rest''⟩, has, heq⟩ := Option.map_eq_some_iff.mp hrest
      cases heq
      obtain ⟨hok, rfl⟩ := (h _ _ _).mp ha
      obtain ⟨⟨hlen, hall⟩, hbytes⟩ := (ih _ _ _).mp has
      refine ⟨⟨congrArg (· + 1) hlen, List.forall_mem_cons.mpr ⟨hok, hall⟩⟩, ?_⟩
      dsimp only at hbytes ⊢
      rw [hbytes, List.flatMap_cons, List.append_assoc]
    · rintro ⟨⟨hlen, hall⟩, rfl⟩
      cases as with
      | nil => cases hlen
      | cons a as =>
        obtain ⟨hok, hall⟩ := List.forall_mem_cons.mp hall
        have hlen : as.length = n := Nat.succ_inj.mp hlen
        refine ⟨(a, as.flatMap write ++ rest), ?_, ?_⟩
        · dsimp only
          rw [List.flatMap_cons, List.append_assoc]
          exact h.read_write hok _
        · rw [ih.read_write ⟨hlen, hall⟩, Option.map_some]

end

/-- One item of `n` bytes; an item of no bytes is never read. -/
def readBytes (n : Nat) : Reader (List UInt8) := fun bs =>
  if n = 0 ∨ bs.length < n then none else some (bs.take n, bs.drop n)

theorem readBytes_reads (n : Nat) :
    Reads (readBytes n) id fun bytes => 0 < n ∧ bytes.length = n := by
  intro bs bytes rest
  rw [readBytes]
  constructor
  · intro heq
    obtain ⟨hbad, heq⟩ := Option.ite_none_left_eq_some.mp heq
    cases heq
    refine ⟨⟨by omega, ?_⟩, (List.take_append_drop n bs).symm⟩
    rw [List.length_take]
    omega
  · rintro ⟨⟨hpos, rfl⟩, rfl⟩
    have hgood : ¬ (bytes.length = 0 ∨ (id bytes ++ rest).length < bytes.length) := by
      rw [id, List.length_append]
      omega
    rw [if_neg hgood]
    simp

inductive Order where
  | little
  | big

namespace Order

def arrange : Order → List UInt8 → List UInt8
  | .little, bs => bs
  | .big, bs => bs.reverse

theorem arrange_arrange (o : Order) (bs : List UInt8) : o.arrange (o.arrange bs) = bs := by
  cases o
  · rfl
  · exact List.reverse_reverse bs

theorem arrange_length (o : Order) (bs : List UInt8) : (o.arrange bs).length = bs.length := by
  cases o
  · rfl
  · exact List.length_reverse

end Order

variable {w : Nat}

def writeBits (o : Order) (v : BitVec w) : List UInt8 := o.arrange (toBytes (w / 8) v.toNat)

def readBits (o : Order) (w : Nat) : Reader (BitVec w) := fun bs =>
  (readBytes (w / 8) bs).map fun r => (BitVec.ofNat w (ofBytes (o.arrange r.1)), r.2)

theorem writeBits_length (o : Order) (v : BitVec w) : (writeBits o v).length = w / 8 := by
  rw [writeBits, o.arrange_length, toBytes_length]

theorem readBits_reads (o : Order) (hpos : 0 < w / 8) (hwhole : 8 * (w / 8) = w) :
    Reads (readBits o w) (writeBits o) fun _ => True := by
  have hpow : 256 ^ (w / 8) = 2 ^ w := by
    rw [show 256 = 2 ^ 8 from rfl, ← Nat.pow_mul, hwhole]
  have hlt (bytes : List UInt8) (hlen : bytes.length = w / 8) :
      ofBytes (o.arrange bytes) < 2 ^ w := by
    have h := ofBytes_lt (o.arrange bytes)
    rwa [o.arrange_length, hlen, hpow] at h
  intro bs v rest
  rw [readBits, Option.map_eq_some_iff]
  constructor
  · rintro ⟨⟨bytes, rest'⟩, hbytes, heq⟩
    cases heq
    obtain ⟨⟨-, hlen⟩, rfl⟩ := (readBytes_reads _ _ _ _).mp hbytes
    -- the digits of the number are the bytes
    have hdigits : toBytes (w / 8) (ofBytes (o.arrange bytes)) = o.arrange bytes := by
      apply ofBytes_inj
      · rw [toBytes_length, o.arrange_length, hlen]
      · rw [ofBytes_toBytes, hpow, Nat.mod_eq_of_lt (hlt bytes hlen)]
    refine ⟨trivial, ?_⟩
    rw [writeBits, BitVec.toNat_ofNat, Nat.mod_eq_of_lt (hlt bytes hlen), hdigits,
      o.arrange_arrange]
    rfl
  · rintro ⟨-, rfl⟩
    have hbytes := (readBytes_reads _).read_write ⟨hpos, writeBits_length o v⟩ rest
    refine ⟨(writeBits o v, rest), hbytes, ?_⟩
    dsimp only
    rw [writeBits, o.arrange_arrange, ofBytes_toBytes, hpow, Nat.mod_eq_of_lt v.isLt,
      BitVec.ofNat_toNat, BitVec.setWidth_eq]

end Codec
