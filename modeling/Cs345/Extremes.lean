import Mathlib.Order.Bounds.Basic
import Mathlib.Order.MinMax
import Mathlib.Tactic.Common

namespace Extremes
variable {β : Type} {l : List β} {a b x y : β}

theorem mem_seed (ha : a ∈ l) : {x | x ∈ a :: l} = {x | x ∈ l} := by
  ext x
  exact List.mem_cons.trans (or_iff_right_of_imp fun h => h ▸ ha)

variable [LinearOrder β]

theorem isGreatest_foldl_max (l : List β) : ∀ a, IsGreatest {x | x ∈ a :: l} (l.foldl max a) := by
  induction l with
  | nil =>
    intro a
    exact ⟨List.mem_singleton_self a, fun x hx => le_of_eq (List.mem_singleton.mp hx)⟩
  | cons b l ih =>
    intro a
    obtain ⟨hmem, hle⟩ := ih (max a b)
    refine ⟨?_, fun x hx => ?_⟩
    · rcases List.mem_cons.mp hmem with heq | hl
      · rcases max_choice a b with h | h
        · exact (heq.trans h).symm ▸ List.mem_cons_self
        · exact (heq.trans h).symm ▸ List.mem_cons_of_mem _ List.mem_cons_self
      · exact List.mem_cons_of_mem _ (List.mem_cons_of_mem _ hl)
    · have hmax : max a b ≤ (b :: l).foldl max a := hle List.mem_cons_self
      rcases List.mem_cons.mp hx with rfl | hx
      · exact (le_max_left _ b).trans hmax
      · rcases List.mem_cons.mp hx with rfl | hx
        · exact (le_max_right a _).trans hmax
        · exact hle (List.mem_cons_of_mem _ hx)

theorem isLeast_foldl_min (l : List β) (a : β) : IsLeast {x | x ∈ a :: l} (l.foldl min a) :=
  @isGreatest_foldl_max βᵒᵈ _ l a

theorem isGreatest_of_seed (ha : a ∈ l) : IsGreatest {x | x ∈ l} (l.foldl max a) :=
  mem_seed ha ▸ isGreatest_foldl_max l a

theorem isLeast_of_seed (ha : a ∈ l) : IsLeast {x | x ∈ l} (l.foldl min a) :=
  mem_seed ha ▸ isLeast_foldl_min l a

theorem exchanged_iff {s : Set β} (hx : IsGreatest s x) (hy : IsLeast s y) :
    IsGreatest s y ∧ IsLeast s x ↔ ∀ a ∈ s, ∀ b ∈ s, a = b := by
  constructor
  · rintro ⟨hgreatest, -⟩ a ha b hb
    have hsame : x = y := hx.unique hgreatest
    have hall (c : β) (hc : c ∈ s) : c = y := le_antisymm (hgreatest.2 hc) (hy.2 hc)
    exact (hall a ha).trans (hall b hb).symm
  · intro hall
    have hsame : x = y := hall x hx.1 y hy.1
    exact ⟨hsame ▸ hx, hsame ▸ hy⟩

end Extremes
