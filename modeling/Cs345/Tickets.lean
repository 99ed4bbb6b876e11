import Mathlib.Data.Finset.Card
import Mathlib.Data.Finset.Range

namespace Tickets
variable {ι : Type}

structure Drawn (f : ι → Option ℕ) (n : ℕ) : Prop where
  lt : ∀ i m, f i = some m → m < n
  distinct : ∀ i j m, f i = some m → f j = some m → i = j
  all : ∀ m < n, ∃ i, f i = some m

variable {f : ι → Option ℕ} {n : ℕ} {i : ι}

theorem drawn_none : Drawn (fun _ : ι => none) 0 :=
  ⟨nofun, nofun, fun _ hm => absurd hm (Nat.not_lt_zero _)⟩

section Update
variable [DecidableEq ι]

theorem Drawn.keep (h : Drawn f n) {o : Option ℕ} (ho : o = f i) :
    Drawn (Function.update f i o) n := by
  rw [ho, Function.update_eq_self]
  exact h

theorem Drawn.draw (h : Drawn f n) (hi : f i = none) :
    Drawn (Function.update f i (some n)) (n + 1) := by
  have hcases {j : ι} {m : ℕ} (hj : Function.update f i (some n) j = some m) :
      j = i ∧ m = n ∨ j ≠ i ∧ f j = some m := by
    by_cases hji : j = i
    · subst hji
      rw [Function.update_self] at hj
      exact .inl ⟨rfl, (Option.some.inj hj).symm⟩
    · rw [Function.update_of_ne hji] at hj
      exact .inr ⟨hji, hj⟩
  constructor
  · intro j m hj
    rcases hcases hj with ⟨-, rfl⟩ | ⟨-, hj⟩
    · exact Nat.lt_succ_self _
    · exact Nat.lt_succ_of_lt (h.lt j m hj)
  · intro j k m hj hk
    rcases hcases hj with ⟨hji, hm⟩ | ⟨-, hj⟩
    · rcases hcases hk with ⟨hki, -⟩ | ⟨-, hk⟩
      · exact hji.trans hki.symm
      · exact absurd (hm ▸ h.lt k m hk) (Nat.lt_irrefl _)
    · rcases hcases hk with ⟨-, hm⟩ | ⟨-, hk⟩
      · exact absurd (hm ▸ h.lt j m hj) (Nat.lt_irrefl _)
      · exact h.distinct j k m hj hk
  · intro m hm
    rcases Nat.lt_succ_iff_lt_or_eq.mp hm with hlt | rfl
    · obtain ⟨j, hj⟩ := h.all m hlt
      refine ⟨j, ?_⟩
      rwa [Function.update_of_ne]
      rintro rfl
      rw [hi] at hj
      cases hj
    · exact ⟨i, Function.update_self _ _ _⟩

end Update

variable {S : Finset ι}

theorem Drawn.le_card (h : Drawn f n) (hS : ∀ i m, f i = some m → i ∈ S) : n ≤ S.card := by
  have hsub : Finset.range n ⊆ S.image fun i => (f i).getD 0 := by
    intro m hm
    obtain ⟨i, hi⟩ := h.all m (Finset.mem_range.mp hm)
    exact Finset.mem_image.mpr ⟨i, hS i m hi, by rw [hi]; rfl⟩
  have hcard := (Finset.card_le_card hsub).trans Finset.card_image_le
  rwa [Finset.card_range] at hcard

theorem Drawn.card_le (h : Drawn f n) (hS : ∀ i ∈ S, ∃ m, f i = some m) : S.card ≤ n := by
  have hcard : S.card ≤ (Finset.range n).card := by
    refine Finset.card_le_card_of_injOn (fun i => (f i).getD 0) (fun i hi => ?_)
      fun i hi j hj heq => ?_
    · obtain ⟨m, hm⟩ := hS i hi
      simpa [hm] using h.lt i m hm
    · obtain ⟨m, hm⟩ := hS i hi
      obtain ⟨l, hl⟩ := hS j hj
      simp only [hm, hl, Option.getD_some] at heq
      exact h.distinct i j m hm (heq ▸ hl)
  rwa [Finset.card_range] at hcard

theorem Drawn.eq_card (h : Drawn f n) (hS : ∀ i, i ∈ S ↔ ∃ m, f i = some m) : n = S.card :=
  Nat.le_antisymm (h.le_card fun i m hi => (hS i).mpr ⟨m, hi⟩) (h.card_le fun i => (hS i).mp)

end Tickets
