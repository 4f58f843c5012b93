import Mathlib.Data.List.Basic
import Mathlib.Data.UInt
import Mathlib.Tactic.Positivity
import Mathlib.Tactic.Ring
import Mathlib.Tactic.Zify

/-!
# Binary formats

A format writes a value as bytes and reads one off the front of a stream of bytes. Reading what was
written gives the value and the rest of the stream, and a stream from which a value is read is that
value written and the rest: the laws are fields, so every format built here has them.
-/

/-- How the values with `Valid` are written as bytes and read back. -/
structure Format (α : Type*) where
  write : α → List UInt8
  read : List UInt8 → Option (α × List UInt8)
  Valid : α → Prop
  read_write : ∀ {a}, Valid a → ∀ rest, read (write a ++ rest) = some (a, rest)
  write_of_read : ∀ {bs a rest}, read bs = some (a, rest) → bs = write a ++ rest
  valid_of_read : ∀ {bs a rest}, read bs = some (a, rest) → Valid a

namespace Format

variable {α : Type*}

theorem read_eq_some {f : Format α} {bs rest : List UInt8} {a : α} :
    f.read bs = some (a, rest) ↔ f.Valid a ∧ bs = f.write a ++ rest := by
  constructor
  · intro h
    exact ⟨f.valid_of_read h, f.write_of_read h⟩
  · rintro ⟨h, rfl⟩
    exact f.read_write h rest

/-- The `w` bytes of a number, least significant first. -/
def toLE : Nat → Nat → List UInt8
  | 0, _ => []
  | w + 1, n => UInt8.ofNat n :: toLE w (n / 256)

def ofLE : List UInt8 → Nat
  | [] => 0
  | b :: bs => b.toNat + 256 * ofLE bs

@[simp] theorem length_toLE : ∀ w n, (toLE w n).length = w
  | 0, _ => rfl
  | w + 1, n => by simp [toLE, length_toLE w]

theorem ofLE_toLE : ∀ {w n}, n < 256 ^ w → ofLE (toLE w n) = n
  | 0, n, h => by simp at h; simp [toLE, ofLE, h]
  | w + 1, n, h => by
    have hdiv : n / 256 < 256 ^ w := by rw [pow_succ] at h; omega
    simp only [toLE, ofLE, ofLE_toLE hdiv, UInt8.toNat_ofNat']
    omega

theorem toLE_ofLE : ∀ bs, toLE bs.length (ofLE bs) = bs
  | [] => rfl
  | b :: bs => by
    have hb : b.toNat < 256 := b.toNat_lt
    have hdiv : (b.toNat + 256 * ofLE bs) / 256 = ofLE bs := by omega
    simp only [List.length_cons, toLE, ofLE, hdiv, toLE_ofLE bs]
    congr 1
    apply UInt8.toNat_inj.1
    rw [UInt8.toNat_ofNat']
    omega

theorem ofLE_lt : ∀ bs, ofLE bs < 256 ^ bs.length
  | [] => by simp [ofLE]
  | b :: bs => by
    have hb : b.toNat < 256 := b.toNat_lt
    have ih := ofLE_lt bs
    simp only [ofLE, List.length_cons, pow_succ]
    omega

/-- `w` bytes off the front of a stream. -/
def takeBytes (w : Nat) (bs : List UInt8) : Option (List UInt8 × List UInt8) :=
  if w ≤ bs.length then some (bs.take w, bs.drop w) else none

theorem takeBytes_append {w : Nat} {bs : List UInt8} (h : bs.length = w) (rest : List UInt8) :
    takeBytes w (bs ++ rest) = some (bs, rest) := by
  subst h
  simp [takeBytes]

theorem eq_of_takeBytes {w : Nat} {bs a rest : List UInt8} (h : takeBytes w bs = some (a, rest)) :
    bs = a ++ rest ∧ a.length = w := by
  simp only [takeBytes, Option.ite_none_right_eq_some, Option.some.injEq, Prod.mk.injEq] at h
  obtain ⟨hw, rfl, rfl⟩ := h
  simp [hw]

/-- An unsigned number of `w` bytes. -/
def unsigned (w : Nat) : Format Nat where
  write := toLE w
  read bs := (takeBytes w bs).map fun r => (ofLE r.1, r.2)
  Valid n := n < 256 ^ w
  read_write h rest := by simp [takeBytes_append (length_toLE w _) rest, ofLE_toLE h]
  write_of_read h := by
    simp only [Option.map_eq_some_iff, Prod.mk.injEq, Prod.exists] at h
    obtain ⟨b, r, ht, rfl, rfl⟩ := h
    obtain ⟨rfl, rfl⟩ := eq_of_takeBytes ht
    rw [toLE_ofLE]
  valid_of_read h := by
    simp only [Option.map_eq_some_iff, Prod.mk.injEq, Prod.exists] at h
    obtain ⟨b, r, ht, rfl, rfl⟩ := h
    exact (eq_of_takeBytes ht).2 ▸ ofLE_lt b

/-- The number whose `w` bytes in two's complement are those of `n`. -/
def toSigned (w n : Nat) : Int := if 2 * n < 256 ^ w then n else n - 256 ^ w

def ofSigned (w : Nat) (z : Int) : Nat := (z % 256 ^ w).toNat

theorem natCast_ofSigned (w : Nat) (z : Int) : (ofSigned w z : Int) = z % 256 ^ w :=
  Int.toNat_of_nonneg (Int.emod_nonneg z (by positivity))

theorem ofSigned_lt (w : Nat) (z : Int) : ofSigned w z < 256 ^ w := by
  have h : z % 256 ^ w < 256 ^ w := Int.emod_lt_of_pos z (by positivity)
  zify
  rwa [natCast_ofSigned]

theorem toSigned_ofSigned {w : Nat} {z : Int} (h : -(256 ^ w) ≤ 2 * z ∧ 2 * z < 256 ^ w) :
    toSigned w (ofSigned w z) = z := by
  have hz : z % 256 ^ w = z ∨ z % 256 ^ w = z + 256 ^ w ∧ z < 0 := by
    rcases le_or_gt 0 z with h0 | h0
    · exact .inl (Int.emod_eq_of_lt h0 (by omega))
    · refine .inr ⟨?_, h0⟩
      rw [← Int.add_emod_right]
      exact Int.emod_eq_of_lt (by omega) (by omega)
  have hc := natCast_ofSigned w z
  unfold toSigned
  zify
  split_ifs <;> omega

theorem ofSigned_natCast {w n : Nat} (h : n < 256 ^ w) : ofSigned w n = n := by
  zify
  rw [natCast_ofSigned]
  exact Int.emod_eq_of_lt (by omega) (by exact_mod_cast h)

theorem ofSigned_toSigned {w n : Nat} (h : n < 256 ^ w) : ofSigned w (toSigned w n) = n := by
  zify
  rw [natCast_ofSigned]
  have hn : (n : Int) < 256 ^ w := by exact_mod_cast h
  unfold toSigned
  split_ifs
  · exact Int.emod_eq_of_lt (by omega) hn
  · rw [Int.sub_emod_right]
    exact Int.emod_eq_of_lt (by omega) hn

theorem toSigned_bounds {w n : Nat} (h : n < 256 ^ w) :
    -(256 ^ w) ≤ 2 * toSigned w n ∧ 2 * toSigned w n < 256 ^ w := by
  have hn : (n : Int) < 256 ^ w := by exact_mod_cast h
  unfold toSigned
  split_ifs with h2
  · have h2' : 2 * (n : Int) < 256 ^ w := by exact_mod_cast h2
    omega
  · have h2' : ¬ 2 * (n : Int) < 256 ^ w := by exact_mod_cast h2
    omega

/-- A two's complement number of `w` bytes. -/
def signed (w : Nat) : Format Int where
  write z := toLE w (ofSigned w z)
  read bs := (takeBytes w bs).map fun r => (toSigned w (ofLE r.1), r.2)
  Valid z := -(256 ^ w) ≤ 2 * z ∧ 2 * z < 256 ^ w
  read_write h rest := by
    simp [takeBytes_append (length_toLE w _) rest, ofLE_toLE (ofSigned_lt w _),
      toSigned_ofSigned h]
  write_of_read h := by
    simp only [Option.map_eq_some_iff, Prod.mk.injEq, Prod.exists] at h
    obtain ⟨b, r, ht, rfl, rfl⟩ := h
    obtain ⟨rfl, rfl⟩ := eq_of_takeBytes ht
    rw [ofSigned_toSigned (ofLE_lt b), toLE_ofLE]
  valid_of_read h := by
    simp only [Option.map_eq_some_iff, Prod.mk.injEq, Prod.exists] at h
    obtain ⟨b, r, ht, rfl, rfl⟩ := h
    exact toSigned_bounds ((eq_of_takeBytes ht).2 ▸ ofLE_lt b)

/-- A block of `w` bytes. -/
abbrev Block (w : Nat) := { bs : List UInt8 // bs.length = w }

def zeros (w : Nat) : Block w := ⟨List.replicate w 0, by simp⟩

def block (w : Nat) : Format (Block w) where
  write b := b.1
  read bs := if h : w ≤ bs.length then some (⟨bs.take w, by simp [h]⟩, bs.drop w) else none
  Valid _ := True
  read_write {b} _ rest := by
    obtain ⟨b, rfl⟩ := b
    simp
  write_of_read h := by
    split_ifs at h
    simp only [Option.some.injEq, Prod.mk.injEq] at h
    obtain ⟨rfl, rfl⟩ := h
    simp
  valid_of_read _ := trivial

/-- Reads `n` values one after another. -/
def readMany (f : Format α) : Nat → List UInt8 → Option (List α × List UInt8)
  | 0, bs => some ([], bs)
  | n + 1, bs => (f.read bs).bind fun r => (readMany f n r.2).map fun r' => (r.1 :: r'.1, r'.2)

theorem readMany_succ_eq_some {f : Format α} {n : Nat} {bs rest : List UInt8} {as : List α} :
    readMany f (n + 1) bs = some (as, rest) ↔
      ∃ a r as', f.read bs = some (a, r) ∧ readMany f n r = some (as', rest) ∧ as = a :: as' := by
  simp only [readMany, Option.bind_eq_some_iff, Option.map_eq_some_iff, Prod.exists,
    Prod.mk.injEq]
  constructor
  · rintro ⟨a, r, ha, as', r', has, rfl, rfl⟩
    exact ⟨a, r, as', ha, has, rfl⟩
  · rintro ⟨a, r, as', ha, has, rfl⟩
    exact ⟨a, r, ha, as', rest, has, rfl, rfl⟩

theorem readMany_flatMap {f : Format α} : ∀ {as : List α}, (∀ a ∈ as, f.Valid a) →
    ∀ rest, readMany f as.length (as.flatMap f.write ++ rest) = some (as, rest)
  | [], _, rest => rfl
  | a :: as, h, rest => by
    rw [List.flatMap_cons, List.append_assoc, List.length_cons, readMany_succ_eq_some]
    exact ⟨a, _, as, f.read_write (h a (by simp)) _,
      readMany_flatMap (fun b hb => h b (by simp [hb])) rest, rfl⟩

theorem eq_of_readMany {f : Format α} : ∀ {n : Nat} {bs rest : List UInt8} {as : List α},
    readMany f n bs = some (as, rest) →
      bs = as.flatMap f.write ++ rest ∧ as.length = n ∧ ∀ a ∈ as, f.Valid a
  | 0, bs, rest, as, h => by
    simp only [readMany, Option.some.injEq, Prod.mk.injEq] at h
    obtain ⟨rfl, rfl⟩ := h
    simp
  | n + 1, bs, rest, as, h => by
    obtain ⟨a, r, as', ha, has, rfl⟩ := readMany_succ_eq_some.1 h
    obtain ⟨rfl, rfl, hv⟩ := eq_of_readMany has
    refine ⟨by rw [f.write_of_read ha, List.flatMap_cons, List.append_assoc], rfl, ?_⟩
    simpa using ⟨f.valid_of_read ha, hv⟩

/-- The values of a list of known length. -/
def many (f : Format α) (n : Nat) : Format (List α) where
  write as := as.flatMap f.write
  read := readMany f n
  Valid as := as.length = n ∧ ∀ a ∈ as, f.Valid a
  read_write := by
    rintro as ⟨rfl, h⟩ rest
    exact readMany_flatMap h rest
  write_of_read h := (eq_of_readMany h).1
  valid_of_read h := (eq_of_readMany h).2

/-! ### Formats made of others -/

variable {β : Type*}

/-- The values of another type that stand for those of a format. -/
def imap (f : Format α) (fn : α → β) (inv : β → α) (hfn : ∀ b, fn (inv b) = b)
    (hinv : ∀ a, f.Valid a → inv (fn a) = a) : Format β where
  write b := f.write (inv b)
  read bs := (f.read bs).map fun r => (fn r.1, r.2)
  Valid b := f.Valid (inv b)
  read_write h rest := by simp [f.read_write h, hfn]
  write_of_read h := by
    simp only [Option.map_eq_some_iff, Prod.mk.injEq, Prod.exists] at h
    obtain ⟨a, r, ha, rfl, rfl⟩ := h
    rw [hinv a (f.valid_of_read ha), f.write_of_read ha]
  valid_of_read h := by
    simp only [Option.map_eq_some_iff, Prod.mk.injEq, Prod.exists] at h
    obtain ⟨a, r, ha, rfl, rfl⟩ := h
    rw [hinv a (f.valid_of_read ha)]
    exact f.valid_of_read ha

/-- One value behind another. -/
def pair (f : Format α) (g : Format β) : Format (α × β) where
  write p := f.write p.1 ++ g.write p.2
  read bs := (f.read bs).bind fun r => (g.read r.2).map fun r' => ((r.1, r'.1), r'.2)
  Valid p := f.Valid p.1 ∧ g.Valid p.2
  read_write h rest := by
    rw [List.append_assoc, f.read_write h.1]
    simp [g.read_write h.2]
  write_of_read h := by
    simp only [Option.bind_eq_some_iff, Option.map_eq_some_iff, Prod.mk.injEq, Prod.exists] at h
    obtain ⟨a, r, ha, b, r', hb, rfl, rfl⟩ := h
    rw [f.write_of_read ha, g.write_of_read hb, List.append_assoc]
  valid_of_read h := by
    simp only [Option.bind_eq_some_iff, Option.map_eq_some_iff, Prod.mk.injEq, Prod.exists] at h
    obtain ⟨a, r, ha, b, r', hb, rfl, rfl⟩ := h
    exact ⟨f.valid_of_read ha, g.valid_of_read hb⟩

/-- `n` values one after another, by their place. -/
def vec [Inhabited α] (f : Format α) (n : Nat) : Format (Fin n → α) :=
  (f.many n).imap (fun as i => as.getD i default) List.ofFn
    (fun v => funext fun i => by simp)
    (by
      rintro as ⟨rfl, -⟩
      refine List.ext_getElem (by simp) fun i hi hi' => ?_
      simp)

@[simp] theorem vec_valid [Inhabited α] {f : Format α} {n : Nat} {v : Fin n → α} :
    (f.vec n).Valid v ↔ ∀ i, f.Valid (v i) := by
  simp [vec, imap, many]

/-- The values of a list behind their number, of `w` bytes. -/
def counted (w : Nat) (f : Format α) : Format (List α) where
  write as := toLE w as.length ++ as.flatMap f.write
  read bs := ((unsigned w).read bs).bind fun r => readMany f r.1 r.2
  Valid as := as.length < 256 ^ w ∧ ∀ a ∈ as, f.Valid a
  read_write {as} h rest := by
    have hn := (unsigned w).read_write h.1 (as.flatMap f.write ++ rest)
    rw [List.append_assoc]
    change ((unsigned w).read (toLE w as.length ++ _)).bind _ = _
    rw [show (unsigned w).read (toLE w as.length ++ (as.flatMap f.write ++ rest)) =
      some (as.length, as.flatMap f.write ++ rest) from hn]
    exact readMany_flatMap h.2 rest
  write_of_read h := by
    simp only [Option.bind_eq_some_iff, Prod.exists] at h
    obtain ⟨n, r, hn, hr⟩ := h
    obtain ⟨rfl, rfl, -⟩ := eq_of_readMany hr
    rw [(unsigned w).write_of_read hn, List.append_assoc]
    rfl
  valid_of_read h := by
    simp only [Option.bind_eq_some_iff, Prod.exists] at h
    obtain ⟨n, r, hn, hr⟩ := h
    obtain ⟨rfl, rfl, hv⟩ := eq_of_readMany hr
    exact ⟨(unsigned w).valid_of_read hn, hv⟩

def uint32 : Format UInt32 :=
  (unsigned 4).imap UInt32.ofNat UInt32.toNat (fun _ => UInt32.ofNat_toNat)
    fun _ h => UInt32.toNat_ofNat_of_lt h

def uint64 : Format UInt64 :=
  (unsigned 8).imap UInt64.ofNat UInt64.toNat (fun _ => UInt64.ofNat_toNat)
    fun _ h => UInt64.toNat_ofNat_of_lt h

def int32 : Format Int32 :=
  (signed 4).imap Int32.ofInt Int32.toInt (fun _ => Int32.ofInt_toInt ..) fun z h => by
    have hz : -(256 ^ 4) ≤ 2 * z ∧ 2 * z < 256 ^ 4 := h
    exact Int32.toInt_ofInt_of_le (by omega) (by omega)

@[simp] theorem uint32_valid (n : UInt32) : uint32.Valid n := n.toNat_lt

@[simp] theorem uint64_valid (n : UInt64) : uint64.Valid n := n.toNat_lt

@[simp] theorem int32_valid (z : Int32) : int32.Valid z := by
  have hle := z.le_toInt
  have hlt := z.toInt_lt
  change -(256 ^ 4) ≤ 2 * z.toInt ∧ 2 * z.toInt < 256 ^ 4
  constructor <;> norm_num at * <;> omega

end Format
