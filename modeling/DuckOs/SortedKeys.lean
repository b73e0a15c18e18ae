import Mathlib

namespace DuckOs.SortedKeys

variable {κ : Type} [LinearOrder κ] {l l' : List κ} {m : κ} {i : ℕ}

def below (l : List κ) (m : κ) : List κ := l.filter (· < m)

theorem below_append (h : l.Pairwise (· < ·)) (m : κ) : below l m ++ l.filter (m ≤ ·) = l := by
  unfold below
  induction l with
  | nil => rfl
  | cons a l ih =>
    obtain ⟨ha,hl⟩ := List.pairwise_cons.mp h
    by_cases ham : a < m
    · simp [ham,not_le.mpr ham,ih hl]
    · -- what follows is above the bound as well
      have habove : ∀ b ∈ l, m ≤ b := fun b hb => (not_lt.mp ham).trans (ha b hb).le
      have hbelow : l.filter (· < m) = [] := by simpa using habove
      have hall : l.filter (m ≤ ·) = l := by simpa using habove
      simp [ham,not_lt.mp ham,hbelow,hall]

section

variable (h : l.Pairwise (· < ·)) (h' : l'.Pairwise (· < ·)) (hsame : ∀ k < m, k ∈ l ↔ k ∈ l')
include h h' hsame

theorem below_congr : below l m = below l' m := by
  have hperm : (below l m).Perm (below l' m) := by
    refine (List.perm_ext_iff_of_nodup (h.filter _).nodup (h'.filter _).nodup).mpr fun k => ?_
    simp only [List.mem_filter,decide_eq_true_eq]
    exact ⟨fun hk => ⟨(hsame k hk.2).mp hk.1,hk.2⟩,fun hk => ⟨(hsame k hk.2).mpr hk.1,hk.2⟩⟩
  exact hperm.eq_of_pairwise (fun _ _ _ _ hab hba => (lt_asymm hab hba).elim) (h.filter _)
    (h'.filter _)

theorem take_congr (hi : i ≤ (below l m).length) : l.take i = l'.take i := by
  have hi' : i ≤ (below l' m).length := by rwa [← below_congr h h' hsame]
  rw [← below_append h m,← below_append h' m,List.take_append_of_le_length hi,
    List.take_append_of_le_length hi',below_congr h h' hsame]

end

end DuckOs.SortedKeys
