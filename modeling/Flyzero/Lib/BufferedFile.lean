import Mathlib.Data.List.Basic

/-! Output through a buffer to a descriptor that may not take all of a flush. -/
namespace BufferedFile

structure File where
  accepted : List UInt8
  buffer : List UInt8
  flushes : Nat

def empty : File := { accepted := [], buffer := [], flushes := 0 }

section
variable (size : Nat) (accepts : Nat → Nat)

/-- The descriptor takes as many bytes as it accepts at this flush, which fails when they are not
all. -/
def flush (f : File) : File × Bool :=
  let n := accepts f.flushes
  ({ accepted := f.accepted ++ f.buffer.take n
     buffer := f.buffer.drop n
     flushes := f.flushes + 1 }, f.buffer.length ≤ n)

def putByte (f : File) (b : UInt8) : File × Bool :=
  if f.buffer.length < size then ({ f with buffer := f.buffer ++ [b] }, true)
  else
    let (f, flushed) := flush accepts f
    if flushed then ({ f with buffer := f.buffer ++ [b] }, true) else (f, false)

def write (f : File) : List UInt8 → File × Bool
  | [] => (f, true)
  | b :: bs =>
    let (f, put) := putByte size accepts f b
    if put then write f bs else (f, false)

/-- All flushes so far were of a full buffer and took it, and the last byte waits. -/
structure Holds (bs : List UInt8) (f : File) : Prop where
  bytes : f.accepted ++ f.buffer = bs
  whole : f.accepted.length = size * f.flushes
  taken : ∀ k < f.flushes, size ≤ accepts k
  le : f.buffer.length ≤ size
  pos : 0 < f.flushes → 0 < f.buffer.length

/-- A full buffer has not been taken, and a byte after it is lost. -/
structure Failed (bs : List UInt8) (f : File) : Prop where
  short : ∃ k, accepts k < size ∧ size * (k + 1) < bs.length
  lost : f.accepted.length + f.buffer.length < bs.length

end

section
variable {size : Nat} {accepts : Nat → Nat} {f : File} {bs : List UInt8}

theorem write_append (f : File) (bs cs : List UInt8) : write size accepts f (bs ++ cs) =
    if (write size accepts f bs).2 then write size accepts (write size accepts f bs).1 cs
    else write size accepts f bs := by
  induction bs generalizing f with
  | nil => rfl
  | cons b bs ih =>
    rw [List.cons_append, write, write]
    dsimp only
    split
    · exact ih _
    · rfl

theorem empty_holds (size : Nat) (accepts : Nat → Nat) : Holds size accepts [] empty :=
  ⟨rfl, rfl, nofun, Nat.zero_le _, nofun⟩

theorem flush_length (accepts : Nat → Nat) (f : File) : (flush accepts f).1.accepted.length +
    (flush accepts f).1.buffer.length = f.accepted.length + f.buffer.length := by
  rw [flush]
  simp only [List.length_append, List.length_take, List.length_drop]
  omega

theorem Holds.length (h : Holds size accepts bs f) :
    bs.length = size * f.flushes + f.buffer.length := by
  rw [← h.bytes, List.length_append, h.whole]

theorem putByte_spec (hsize : 0 < size) (h : Holds size accepts bs f) (b : UInt8) :
    (putByte size accepts f b).2 = true ∧
        Holds size accepts (bs ++ [b]) (putByte size accepts f b).1 ∨
      (putByte size accepts f b).2 = false ∧
        Failed size accepts (bs ++ [b]) (putByte size accepts f b).1 := by
  have hlen := h.length
  rw [putByte]
  by_cases hroom : f.buffer.length < size
  · rw [if_pos hroom]
    refine .inl ⟨rfl, ?_, h.whole, h.taken, ?_, fun _ => ?_⟩
    · rw [← h.bytes, List.append_assoc]
    · rw [List.length_append]
      exact hroom
    · rw [List.length_append]
      exact Nat.succ_pos _
  · rw [if_neg hroom]
    have hfull : f.buffer.length = size := Nat.le_antisymm h.le (Nat.not_lt.mp hroom)
    have hsame := flush_length accepts f
    by_cases hall : f.buffer.length ≤ accepts f.flushes
    · have hflushed : (flush accepts f).2 = true := decide_eq_true hall
      have hempty : (flush accepts f).1.buffer = [] := List.drop_eq_nil_of_le hall
      have hgone : (flush accepts f).1.accepted = bs := by
        rw [flush, List.take_of_length_le hall, h.bytes]
      dsimp only
      rw [if_pos hflushed, hempty]
      refine .inl ⟨rfl, ?_, ?_, ?_, ?_, fun _ => Nat.one_pos⟩
      · rw [hgone, List.nil_append]
      · rw [hgone, hlen, hfull]
        exact (Nat.mul_succ size f.flushes).symm
      · intro k hk
        rcases Nat.lt_succ_iff_lt_or_eq.mp hk with hk | rfl
        · exact h.taken k hk
        · exact hfull ▸ hall
      · exact hsize
    · have hflushed : ¬ (flush accepts f).2 = true := by
        rw [flush, decide_eq_true_eq]
        exact hall
      dsimp only
      rw [if_neg hflushed]
      refine .inr ⟨rfl, ⟨f.flushes, by omega, ?_⟩, ?_⟩
      · rw [List.length_append, List.length_singleton, hlen, Nat.mul_succ]
        omega
      · rw [hsame, List.length_append, List.length_singleton, ← h.bytes, List.length_append]
        exact Nat.lt_succ_self _

theorem write_spec (hsize : 0 < size) {pre : List UInt8} (h : Holds size accepts pre f)
    (bs : List UInt8) :
    (write size accepts f bs).2 = true ∧
        Holds size accepts (pre ++ bs) (write size accepts f bs).1 ∨
      (write size accepts f bs).2 = false ∧
        Failed size accepts (pre ++ bs) (write size accepts f bs).1 := by
  induction bs generalizing f pre with
  | nil =>
    rw [List.append_nil]
    exact .inl ⟨rfl, h⟩
  | cons b bs ih =>
    rw [write]
    dsimp only
    rcases putByte_spec hsize h b with ⟨hput, hholds⟩ | ⟨hput, hfailed⟩
    · rw [if_pos hput, List.append_cons]
      exact ih hholds
    · obtain ⟨⟨k, hshort, hk⟩, hlost⟩ := hfailed
      rw [if_neg (Bool.eq_false_iff.mp hput), List.append_cons]
      have hle : (pre ++ [b]).length ≤ (pre ++ [b] ++ bs).length := by
        simp
      exact .inr ⟨rfl, ⟨k, hshort, Nat.lt_of_lt_of_le hk hle⟩, Nat.lt_of_lt_of_le hlost hle⟩

def fullFlushes (size : Nat) (bs : List UInt8) : Nat := (bs.length - 1) / size

theorem Holds.flushes (h : Holds size accepts bs f) (hpos : 0 < bs.length) :
    f.flushes = fullFlushes size bs ∧ f.buffer.length = bs.length - size * fullFlushes size bs := by
  have hlen := h.length
  have hle := h.le
  have hbuffer : 0 < f.buffer.length := by
    rcases Nat.eq_zero_or_pos f.flushes with hzero | hflushes
    · rw [hzero] at hlen
      omega
    · exact h.pos hflushes
  have hflushes : f.flushes = fullFlushes size bs := by
    rw [fullFlushes, hlen]
    symm
    refine Nat.div_eq_of_lt_le ?_ ?_
    · rw [Nat.mul_comm]
      omega
    · rw [Nat.succ_mul, Nat.mul_comm]
      omega
  rw [← hflushes]
  exact ⟨rfl, by omega⟩

theorem write_ok_iff (accepts : Nat → Nat) (hsize : 0 < size) (hpos : 0 < bs.length) :
    (write size accepts empty bs).2 = true ↔ ∀ k < fullFlushes size bs, size ≤ accepts k := by
  have hspec := write_spec hsize (empty_holds size accepts) bs
  rw [List.nil_append] at hspec
  rcases hspec with ⟨hok, hholds⟩ | ⟨hfail, hfailed⟩
  · rw [← (hholds.flushes hpos).1]
    exact iff_of_true hok hholds.taken
  · obtain ⟨⟨k, hshort, hk⟩, -⟩ := hfailed
    refine iff_of_false (Bool.eq_false_iff.mp hfail) fun hall => ?_
    have hlt : k < fullFlushes size bs := by
      rw [fullFlushes, Nat.lt_iff_add_one_le, Nat.le_div_iff_mul_le hsize, Nat.mul_comm]
      omega
    have htaken := hall k hlt
    omega

/-- The descriptor gets everything when the last flush is taken as well. -/
theorem flush_accepted_iff (accepts : Nat → Nat) (hsize : 0 < size) (hpos : 0 < bs.length) :
    (flush accepts (write size accepts empty bs).1).1.accepted = bs ↔
      (write size accepts empty bs).2 = true ∧
        bs.length - size * fullFlushes size bs ≤ accepts (fullFlushes size bs) := by
  have hspec := write_spec hsize (empty_holds size accepts) bs
  rw [List.nil_append] at hspec
  rcases hspec with ⟨hok, hholds⟩ | ⟨hfail, hfailed⟩
  · obtain ⟨hflushes, hbuffer⟩ := hholds.flushes hpos
    rw [and_iff_right hok, ← hbuffer, ← hflushes]
    constructor
    · intro haccepted
      have hsame := flush_length accepts (write size accepts empty bs).1
      have hlen := congrArg List.length hholds.bytes
      rw [List.length_append] at hlen
      rw [haccepted, hlen] at hsame
      have hnil := List.length_eq_zero_iff.mp (Nat.add_eq_left.mp hsame)
      exact List.drop_eq_nil_iff.mp hnil
    · intro hall
      rw [flush, List.take_of_length_le hall, hholds.bytes]
  · refine iff_of_false (fun haccepted => ?_) fun hall => ?_
    · have hsame := flush_length accepts (write size accepts empty bs).1
      have hlost := hfailed.lost
      rw [haccepted] at hsame
      omega
    · rw [hfail] at hall
      cases hall.1

end

end BufferedFile
