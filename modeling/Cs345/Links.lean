import Mathlib.Tactic.Common

namespace Links
variable {α β σ τ : Type}

inductive Path (next : α → α) : α → List α → α → Prop
  | last {a b : α} : next a = b → Path next a [] b
  | cons {a x b : α} {l : List α} : next a = x → Path next x l b → Path next a (x :: l) b

structure Circle (next : α → α) (head : α) (l : List α) : Prop where
  path : Path next head l head
  head : head ∉ l

section Loops
variable [DecidableEq α]

def forEach (next : σ → α → α) (head : α) (body : σ → α → Option σ) : ℕ → α → σ → Option σ
  | 0, _, _ => none
  | n + 1, pos, s =>
    if pos = head then some s
    else (body s pos).bind fun s => forEach next head body n (next s pos) s

def search (next : α → α) (head : α) (found : α → Bool) : ℕ → α → Option (Option α)
  | 0, _ => none
  | n + 1, pos =>
    if pos = head then some none
    else if found pos then some (some pos)
    else search next head found n (next pos)

variable {next : σ → α → α} {head : α} {body : σ → α → Option σ}

theorem forEach_keeps {I : σ → Prop} (hbody : ∀ s a s', I s → body s a = some s' → I s') {n : ℕ}
    {pos : α} {s s' : σ} (hs : I s) (h : forEach next head body n pos s = some s') : I s' := by
  induction n generalizing pos s with
  | zero => cases h
  | succ n ih =>
    rw [forEach] at h
    split_ifs at h
    · cases h
      exact hs
    · obtain ⟨s1, h1, h⟩ := Option.bind_eq_some_iff.mp h
      exact ih (hbody _ _ _ hs h1) h

theorem forEach_path {links : α → α} (hkeep : ∀ s a s', next s = links → body s a = some s' →
      next s' = links) {a : α} {l : List α} (hpath : Path links a l head) (hhead : head ∉ l) {n : ℕ}
    (hn : l.length < n) {s : σ} (hs : next s = links) :
    forEach next head body n (next s a) s = l.foldlM body s := by
  induction hpath generalizing n s with
  | last hlast =>
    obtain ⟨n, rfl⟩ := Nat.exists_eq_add_of_lt hn
    rw [hs, hlast, forEach, if_pos rfl]
    rfl
  | @cons a x _ l hx _ ih =>
    obtain ⟨hne, hrest⟩ := List.ne_and_not_mem_of_not_mem_cons hhead
    cases n with
    | zero => cases hn
    | succ n =>
      rw [hs, hx, forEach, if_neg hne.symm, List.foldlM_cons]
      cases hbody : body s x with
      | none => rfl
      | some s1 => exact ih hrest (Nat.lt_of_succ_lt_succ hn) (hkeep _ _ _ hs hbody)

variable (next) in
theorem Circle.forEach {links : α → α} {l : List α} (h : Circle links head l)
    (hkeep : ∀ s a s', next s = links → body s a = some s' → next s' = links) {n : ℕ}
    (hn : l.length < n) {s : σ} (hs : next s = links) :
    Links.forEach next head body n (next s head) s = l.foldlM body s :=
  forEach_path hkeep h.path h.head hn hs

theorem search_path {links : α → α} {found : α → Bool} {a : α} {l : List α}
    (hpath : Path links a l head) (hhead : head ∉ l) {n : ℕ} (hn : l.length < n) :
    search links head found n (links a) = some (l.find? found) := by
  induction hpath generalizing n with
  | last hlast =>
    obtain ⟨n, rfl⟩ := Nat.exists_eq_add_of_lt hn
    rw [hlast, search, if_pos rfl]
    rfl
  | @cons a x _ l hx _ ih =>
    obtain ⟨hne, hrest⟩ := List.ne_and_not_mem_of_not_mem_cons hhead
    cases n with
    | zero => cases hn
    | succ n =>
      rw [hx, search, if_neg hne.symm, List.find?_cons]
      cases found x with
      | true => rfl
      | false => exact ih hrest (Nat.lt_of_succ_lt_succ hn)

theorem Circle.search {links : α → α} {found : α → Bool} {l : List α} (h : Circle links head l)
    {n : ℕ} (hn : l.length < n) :
    Links.search links head found n (links head) = some (l.find? found) :=
  search_path h.path h.head hn

end Loops

theorem foldlM_simulates {f : σ → α → Option σ} {g : τ → β → Option τ} {e : β → α}
    {Rel : σ → τ → Prop} (hstep : ∀ s t b t', Rel s t → g t b = some t' →
      ∃ s', f s (e b) = some s' ∧ Rel s' t') {l : List β} {s : σ} {t t' : τ} (hrel : Rel s t)
    (h : l.foldlM g t = some t') : ∃ s', (l.map e).foldlM f s = some s' ∧ Rel s' t' := by
  induction l generalizing s t with
  | nil =>
    cases h
    exact ⟨s, rfl, hrel⟩
  | cons b l ih =>
    rw [List.foldlM_cons] at h
    obtain ⟨t1, h1, h⟩ := Option.bind_eq_some_iff.mp h
    obtain ⟨s1, hs1, hrel1⟩ := hstep s t b t1 hrel h1
    obtain ⟨s', hs', hrel'⟩ := ih hrel1 h
    refine ⟨s', ?_, hrel'⟩
    rw [List.map_cons, List.foldlM_cons, hs1]
    exact hs'

end Links
