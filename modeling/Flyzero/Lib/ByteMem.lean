import Mathlib.Algebra.Group.Nat.Defs
import Mathlib.Data.List.Basic
import Mathlib.Data.Nat.Basic
import Mathlib.Logic.Function.Basic

/-! Memory as bytes by address, and little-endian words in it. -/
namespace ByteMem

abbrev Mem := Nat → UInt8

def ofBytes : List UInt8 → Nat
  | [] => 0
  | b :: bs => b.toNat + 256 * ofBytes bs

def toBytes : Nat → Nat → List UInt8
  | 0, _ => []
  | n + 1, v => UInt8.ofNat (v % 256) :: toBytes n (v / 256)

@[simp] theorem toBytes_length (n v : Nat) : (toBytes n v).length = n := by
  induction n generalizing v with
  | zero => rfl
  | succ n ih => rw [toBytes, List.length_cons, ih]

theorem ofBytes_toBytes (n v : Nat) : ofBytes (toBytes n v) = v % 256 ^ n := by
  induction n generalizing v with
  | zero => rw [Nat.pow_zero, Nat.mod_one]; rfl
  | succ n ih =>
    have hdigit : (UInt8.ofNat (v % 256)).toNat = v % 256 := by
      rw [UInt8.toNat_ofNat', Nat.mod_mod]
    rw [toBytes, ofBytes, ih, hdigit, Nat.pow_succ, Nat.mul_comm (256 ^ n), Nat.mod_mul]

theorem ofBytes_lt (bs : List UInt8) : ofBytes bs < 256 ^ bs.length := by
  induction bs with
  | nil => exact Nat.one_pos
  | cons b bs ih =>
    have hb := b.toNat_lt
    rw [ofBytes, List.length_cons, Nat.pow_succ]
    omega

theorem ofBytes_append (bs cs : List UInt8) :
    ofBytes (bs ++ cs) = ofBytes bs + 256 ^ bs.length * ofBytes cs := by
  induction bs with
  | nil => simp [ofBytes]
  | cons b bs ih =>
    rw [List.cons_append, ofBytes, ih, ofBytes, List.length_cons, Nat.pow_succ', Nat.mul_add,
      ← Nat.mul_assoc, Nat.add_assoc]

theorem ofBytes_inj {bs cs : List UInt8} (hlen : bs.length = cs.length)
    (h : ofBytes bs = ofBytes cs) : bs = cs := by
  induction bs generalizing cs with
  | nil => exact (List.length_eq_zero_iff.mp hlen.symm).symm
  | cons b bs ih =>
    cases cs with
    | nil => cases hlen
    | cons c cs =>
      have hb := b.toNat_lt
      have hc := c.toNat_lt
      rw [ofBytes, ofBytes] at h
      have hhead : b = c := UInt8.toNat_inj.mp (by omega)
      have htail : bs = cs := ih (Nat.succ_inj.mp hlen) (by omega)
      rw [hhead, htail]

theorem toBytes_ofBytes (bs : List UInt8) : toBytes bs.length (ofBytes bs) = bs := by
  apply ofBytes_inj (toBytes_length ..)
  rw [ofBytes_toBytes, Nat.mod_eq_of_lt (ofBytes_lt bs)]

def load (m : Mem) (a n : Nat) : List UInt8 := (List.range n).map fun j => m (a + j)

def store (m : Mem) (a : Nat) (bs : List UInt8) : Mem := fun x =>
  if x < a then m x else bs.getD (x - a) (m x)

@[simp] theorem load_length (m : Mem) (a n : Nat) : (load m a n).length = n := by simp [load]

theorem load_congr {m m' : Mem} {a n : Nat} (h : ∀ x, a ≤ x → x < a + n → m x = m' x) :
    load m a n = load m' a n := by
  apply List.map_congr_left
  intro j hj
  have hj := List.mem_range.mp hj
  exact h _ (by omega) (by omega)

theorem load_take (m : Mem) (a : Nat) {k n : Nat} (h : k ≤ n) :
    (load m a n).take k = load m a k := by
  rw [load, ← List.map_take, List.take_range, Nat.min_eq_left h, load]

theorem store_outside (m : Mem) {a x : Nat} (bs : List UInt8)
    (h : x < a ∨ a + bs.length ≤ x) : store m a bs x = m x := by
  unfold store
  split
  · rfl
  · rw [List.getD_eq_getElem?_getD, List.getElem?_eq_none (by omega), Option.getD_none]

theorem load_store (m : Mem) (a : Nat) (bs : List UInt8) :
    load (store m a bs) a bs.length = bs := by
  apply List.ext_getElem (load_length ..)
  intro j hj hj'
  have hget : store m a bs (a + j) = bs[j] := by
    rw [store, if_neg (by omega), Nat.add_sub_cancel_left, List.getD_eq_getElem?_getD,
      List.getElem?_eq_getElem hj', Option.getD_some]
  simp [load, hget]

/-- The bytes of `m` from `lo` up to `hi` are those of `m'`. -/
def SameOn (m m' : Mem) (lo hi : Nat) : Prop := ∀ x, lo ≤ x → x < hi → m' x = m x

def word (m : Mem) (a : Nat) : BitVec 64 := BitVec.ofNat 64 (ofBytes (load m a 8))

def setWord (m : Mem) (a : Nat) (v : BitVec 64) : Mem := store m a (toBytes 8 v.toNat)

theorem word_toNat (m : Mem) (a : Nat) : (word m a).toNat = ofBytes (load m a 8) := by
  have h := ofBytes_lt (load m a 8)
  rw [load_length] at h
  exact Nat.mod_eq_of_lt h

theorem word_setWord (m : Mem) (a : Nat) (v : BitVec 64) : word (setWord m a v) a = v := by
  apply BitVec.eq_of_toNat_eq
  have h := load_store m a (toBytes 8 v.toNat)
  rw [toBytes_length] at h
  rw [word_toNat, setWord, h, ofBytes_toBytes]
  exact Nat.mod_eq_of_lt v.isLt

theorem word_congr {m m' : Mem} {a : Nat} (h : ∀ x, a ≤ x → x < a + 8 → m x = m' x) :
    word m a = word m' a := by
  rw [word, word, load_congr h]

theorem SameOn.word {m m' : Mem} {lo hi a : Nat} (h : SameOn m m' lo hi) (hlo : lo ≤ a)
    (hhi : a + 8 ≤ hi) : word m' a = word m a :=
  word_congr fun x hx hx' => h x (by omega) (by omega)

theorem setWord_outside (m : Mem) {a x : Nat} (v : BitVec 64) (h : x < a ∨ a + 8 ≤ x) :
    setWord m a v x = m x :=
  store_outside m _ (by rwa [toBytes_length])

theorem word_store_disjoint (m : Mem) {a b : Nat} (bs : List UInt8)
    (h : b + 8 ≤ a ∨ a + bs.length ≤ b) : word (store m a bs) b = word m b := by
  apply word_congr
  intro x hlo hhi
  exact store_outside m bs (by omega)

theorem word_setWord_disjoint (m : Mem) {a b : Nat} (v : BitVec 64)
    (h : b + 8 ≤ a ∨ a + 8 ≤ b) : word (setWord m a v) b = word m b :=
  word_store_disjoint m _ (by rwa [toBytes_length])

theorem load_eq_of_word_eq {m m' : Mem} {a b : Nat} (h : word m a = word m' b) :
    load m a 8 = load m' b 8 := by
  apply ofBytes_inj (by rw [load_length, load_length])
  rw [← word_toNat, h, word_toNat]

section
variable (D : Nat → Prop) [DecidablePred D]

/-- The memory with the bytes of `d` at some addresses. -/
def overlay (d m : Mem) : Mem := fun x => if D x then d x else m x

def Clear (lo hi : Nat) : Prop := ∀ x, lo ≤ x → x < hi → ¬ D x

end

section
variable {D : Nat → Prop} [DecidablePred D] {d m : Mem} {a lo hi lo' hi' : Nat}

omit [DecidablePred D] in
theorem Clear.mono (h : Clear D lo hi) (hlo : lo ≤ lo') (hhi : hi' ≤ hi) : Clear D lo' hi' :=
  fun x hx hx' => h x (by omega) (by omega)

theorem overlay_eq (h : ∀ x, ¬ D x → d x = m x) : overlay D d m = d := by
  funext x
  unfold overlay
  split
  · rfl
  · rename_i hx
    exact (h x hx).symm

theorem word_overlay (h : Clear D a (a + 8)) : word (overlay D d m) a = word m a :=
  word_congr fun x hx hx' => if_neg (h x hx hx')

theorem word_overlay_covered (h : ∀ x, a ≤ x → x < a + 8 → D x) :
    word (overlay D d m) a = word d a :=
  word_congr fun x hx hx' => if_pos (h x hx hx')

theorem store_overlay {bs : List UInt8} (h : Clear D a (a + bs.length)) :
    store (overlay D d m) a bs = overlay D d (store m a bs) := by
  funext x
  by_cases hx : D x
  · have hout : x < a ∨ a + bs.length ≤ x := by
      by_contra hin
      exact h x (by omega) (by omega) hx
    rw [store_outside _ _ hout, overlay, overlay, if_pos hx, if_pos hx]
  · rw [overlay, if_neg hx, store, store, overlay, if_neg hx]

theorem setWord_overlay (h : Clear D a (a + 8)) (v : BitVec 64) :
    setWord (overlay D d m) a v = overlay D d (setWord m a v) :=
  store_overlay (by rwa [toBytes_length])

theorem update_overlay (h : ¬ D a) (b : UInt8) :
    Function.update (overlay D d m) a b = overlay D d (Function.update m a b) := by
  funext x
  unfold overlay
  by_cases hx : x = a
  · rw [hx, Function.update_self, if_neg h, Function.update_self]
  · rw [Function.update_of_ne hx, Function.update_of_ne hx]

end

end ByteMem
