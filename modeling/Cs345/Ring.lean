import Mathlib.Data.List.Rotate
import Mathlib.Logic.Function.Basic
import Mathlib.Tactic.Common

namespace Ring
variable {α : Type}

structure Store (α : Type) where
  slots : ℕ → α
  count : ℕ

def Store.empty (blank : α) : Store α := ⟨fun _ => blank, 0⟩

def push (size : ℕ) (s : Store α) (x : α) : Store α :=
  ⟨Function.update s.slots (s.count % size) x, s.count + 1⟩

def recent (size : ℕ) (xs : List α) : List α := xs.drop (xs.length - size)

structure Holds (size : ℕ) (blank : α) (xs : List α) (s : Store α) : Prop where
  count : s.count = xs.length
  written : ∀ i, xs.length ≤ i + size → ∀ x, xs[i]? = some x → s.slots (i % size) = x
  unwritten : ∀ j, j < size → xs.length ≤ j → s.slots j = blank

variable {size : ℕ} {blank : α} {xs : List α} {s : Store α}

theorem mod_ne {i n : ℕ} (hi : i < n) (hn : n < i + size) : i % size ≠ n % size := by
  intro heq
  have hdvd : size ∣ n - i := Nat.dvd_of_mod_eq_zero (Nat.sub_mod_eq_zero_of_mod_eq heq.symm)
  have hzero := Nat.eq_zero_of_dvd_of_lt hdvd (by omega)
  omega

theorem holds_empty (size : ℕ) (blank : α) : Holds size blank [] (Store.empty blank) :=
  ⟨rfl, by simp, fun _ _ _ => rfl⟩

theorem Holds.push (h : Holds size blank xs s) (x : α) :
    Holds size blank (xs ++ [x]) (push size s x) := by
  constructor
  · simp [Ring.push, h.count]
  · intro i hi y hy
    simp only [List.length_append, List.length_singleton] at hi
    simp only [Ring.push, h.count]
    rcases Nat.lt_trichotomy i xs.length with hlt | rfl | hgt
    · rw [Function.update_of_ne (mod_ne hlt (by omega))]
      rw [List.getElem?_append_left hlt] at hy
      exact h.written i (by omega) y hy
    · simpa using hy
    · rw [List.getElem?_eq_none (by simp; omega)] at hy
      cases hy
  · intro j hj hle
    simp only [List.length_append, List.length_singleton] at hle
    have hne : j ≠ xs.length % size := by
      rw [Nat.mod_eq_of_lt (by omega)]
      omega
    simp only [Ring.push, h.count, Function.update_of_ne hne]
    exact h.unwritten j hj (by omega)

theorem Holds.pushes (h : Holds size blank xs s) (ys : List α) :
    Holds size blank (xs ++ ys) (ys.foldl (Ring.push size) s) := by
  induction ys generalizing xs s with
  | nil => simpa using h
  | cons y ys ih => simpa using ih (h.push y)

theorem recent_of_le (h : xs.length ≤ size) : recent size xs = xs := by
  rw [recent, Nat.sub_eq_zero_of_le h, List.drop_zero]

theorem length_recent (h : size ≤ xs.length) : (recent size xs).length = size := by
  simp only [recent, List.length_drop]
  omega

theorem Holds.slots_short (h : Holds size blank xs s) (hle : xs.length ≤ size) {j : ℕ}
    (hj : j < xs.length) : s.slots j = xs[j] := by
  have hmod : j % size = j := Nat.mod_eq_of_lt (by omega)
  have := h.written j (by omega) xs[j] (List.getElem?_eq_getElem hj)
  rwa [hmod] at this

theorem shifted_mod {n j : ℕ} (hle : size ≤ n) (hj : j < size) :
    (n - size + (j + (size - n % size)) % size) % size = j := by
  have hlt : n % size < size := Nat.mod_lt _ (by omega)
  obtain ⟨q, hq⟩ : ∃ q, n = n % size + size * q := ⟨n / size, (Nat.mod_add_div n size).symm⟩
  have hpos : 1 ≤ q := by
    by_contra h0
    obtain rfl : q = 0 := by omega
    omega
  obtain ⟨q, rfl⟩ := Nat.exists_eq_add_of_le' hpos
  rw [Nat.mul_add, Nat.mul_one] at hq
  generalize n % size = r at *
  rcases Nat.lt_or_ge j r with hjr | hjr
  · rw [Nat.mod_eq_of_lt (show j + (size - r) < size by omega)]
    have : n - size + (j + (size - r)) = j + size * (q + 1) := by rw [Nat.mul_add]; omega
    rw [this, Nat.add_mul_mod_self_left, Nat.mod_eq_of_lt hj]
  · have hback : (j + (size - r)) % size = j - r := by
      rw [show j + (size - r) = j - r + size by omega, Nat.add_mod_right,
        Nat.mod_eq_of_lt (by omega)]
    have : n - size + (j - r) = j + size * q := by omega
    rw [hback, this, Nat.add_mul_mod_self_left, Nat.mod_eq_of_lt hj]

theorem Holds.slots_rotate (h : Holds size blank xs s) (hle : size ≤ xs.length) :
    (List.range size).map s.slots = (recent size xs).rotate (size - xs.length % size) := by
  have hlen := length_recent hle
  refine List.ext_getElem? fun j => ?_
  rcases Nat.lt_or_ge j size with hj | hj
  · rw [List.getElem?_rotate (by omega), hlen, recent, List.getElem?_drop, List.getElem?_map,
      List.getElem?_range hj]
    have hlt : (j + (size - xs.length % size)) % size < size := Nat.mod_lt _ (by omega)
    obtain ⟨x, hx⟩ : ∃ x, xs[xs.length - size + (j + (size - xs.length % size)) % size]? = some x :=
      ⟨_, List.getElem?_eq_getElem (by omega)⟩
    have hslot := h.written _ (by omega) x hx
    rw [shifted_mod hle hj] at hslot
    rw [hx, ← hslot]
    rfl
  · rw [List.getElem?_eq_none (by simpa using hj), List.getElem?_eq_none (by simp [hlen, hj])]

theorem rotate_back_iff {l : List α} (hlen : l.length = size) {n : ℕ} :
    l.rotate (size - n % size) = l ↔ l.rotate (n % size) = l := by
  rcases Nat.eq_zero_or_pos size with rfl | hpos
  · simp [List.length_eq_zero_iff.mp hlen]
  · have hlt : n % size < size := Nat.mod_lt _ hpos
    have hround : l.rotate size = l := by rw [← hlen, List.rotate_length]
    constructor
    · intro h
      rw [← h, List.rotate_rotate, Nat.sub_add_cancel (Nat.le_of_lt hlt), hround, h]
    · intro h
      rw [← h, List.rotate_rotate, Nat.add_sub_cancel' (Nat.le_of_lt hlt), hround, h]

theorem Holds.slots_recent_iff (h : Holds size blank xs s) (hle : size ≤ xs.length) :
    (List.range size).map s.slots = recent size xs ↔
      (recent size xs).rotate (xs.length % size) = recent size xs := by
  rw [h.slots_rotate hle]
  exact rotate_back_iff (length_recent hle)

end Ring
