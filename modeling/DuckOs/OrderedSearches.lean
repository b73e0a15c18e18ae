import DuckOs.OrderedMaps
import DuckOs.ExecutionRules

namespace DuckOs.OrderedSearches
open ExecutionRules OrderedMaps

variable {α : Type} {t : BTreeMap α} {p : ℕ × α → Bool}

theorem find?_toList_eq_some {k : ℕ} {v : α} :
    t.toList.find? p = some (k, v) ↔ t[k]? = some v ∧ p (k, v) = true ∧
      ∀ (k' : ℕ) (v' : α), k' < k → t[k']? = some v' → p (k', v') = false := by
  have sorted := sorted_toList t
  constructor
  · intro h
    obtain ⟨hp,before,after,hl,hbefore⟩ := List.find?_eq_some_iff_append.mp h
    refine ⟨mem_toList.mp (List.mem_of_find?_eq_some h),hp,?_⟩
    intro k' v' hlt hk'
    have hmem := mem_toList.mpr hk'
    rw [hl] at hmem sorted
    rcases List.mem_append.mp hmem with hin | hin
    · simpa using hbefore _ hin
    · rcases List.mem_cons.mp hin with heq | hlater
      · cases heq
        exact absurd hlt (lt_irrefl k)
      · have hlt' := List.rel_of_pairwise_cons (List.pairwise_append.mp sorted).2.1 hlater
        exact absurd hlt (lt_asymm hlt')
  · rintro ⟨hk,hp,hfirst⟩
    obtain ⟨before,after,hl⟩ := List.append_of_mem (mem_toList.mpr hk)
    refine List.find?_eq_some_iff_append.mpr ⟨hp,before,after,hl,?_⟩
    intro e he
    rw [hl] at sorted
    have hlt := (List.pairwise_append.mp sorted).2.2 e he (k, v) (List.mem_cons_self ..)
    have hin : t[e.1]? = some e.2 := mem_toList.mp (by
      rw [hl]
      exact List.mem_append_left _ he)
    simpa using hfirst e.1 e.2 hlt hin

theorem find?_toList_eq_none :
    t.toList.find? p = none ↔ ∀ (k : ℕ) (v : α), t[k]? = some v → p (k, v) = false := by
  rw [List.find?_eq_none]
  constructor
  · intro h k v hk
    simpa using h (k, v) (mem_toList.mpr hk)
  · intro h e he
    simpa using h e.1 e.2 (mem_toList.mp he)

def Judged (ok : α → Prop) (p : α → Bool) : List α → Prop
  | [] => True
  | e :: l => ok e ∧ (p e = false → Judged ok p l)

theorem judged_toList {ok : ℕ × α → Prop} :
    Judged ok p t.toList ↔ ∀ (k : ℕ) (v : α), t[k]? = some v →
      (∀ (k' : ℕ) (v' : α), k' < k → t[k']? = some v' → p (k', v') = false) → ok (k, v) := by
  have general : ∀ l : List (ℕ × α), (l.Pairwise fun a b => a.1 < b.1) →
      (Judged ok p l ↔ ∀ e ∈ l, (∀ e' ∈ l, e'.1 < e.1 → p e' = false) → ok e) := by
    intro l
    induction l with
    | nil => simp [Judged]
    | cons e l ih =>
      intro sorted
      obtain ⟨hfirst,hrest⟩ := List.pairwise_cons.mp sorted
      simp only [Judged,ih hrest,List.forall_mem_cons,lt_irrefl,false_imp_iff,true_and]
      constructor
      · rintro ⟨hok,hlater⟩
        refine ⟨fun _ => hok,fun e' he' hbefore => ?_⟩
        exact hlater (hbefore.1 (hfirst e' he')) e' he' hbefore.2
      · rintro ⟨hok,hlater⟩
        refine ⟨hok fun e' he' hlt => absurd hlt (lt_asymm (hfirst e' he')),?_⟩
        exact fun hp e' he' hbefore => hlater e' he' ⟨fun _ => hp,hbefore⟩
  rw [general _ (sorted_toList t)]
  constructor
  · intro h k v hk hbefore
    exact h (k, v) (mem_toList.mpr hk) fun e he hlt => hbefore e.1 e.2 hlt (mem_toList.mp he)
  · intro h e he hbefore
    refine h e.1 e.2 (mem_toList.mp he) fun k' v' hlt hk' => ?_
    exact hbefore (k', v') (mem_toList.mpr hk') hlt

theorem findM?_judged {ε σ : Type} {f : α → EStateM ε σ Bool} {p : α → Bool} {ok : α → Prop}
    {s : σ} (l : List α) (judges : ∀ e ∈ l, ok e → f e s = .ok (p e) s)
    (stops : ∀ e ∈ l, ¬ ok e → ∃ err, f e s = .error err s) :
    (Judged ok p l → l.findM? f s = .ok (l.find? p) s) ∧
      (¬ Judged ok p l → ∃ err, l.findM? f s = .error err s) := by
  induction l with
  | nil => exact ⟨fun _ => rfl,fun h => absurd trivial h⟩
  | cons e l ih =>
    rw [List.forall_mem_cons] at judges stops
    by_cases hok : ok e
    · have hstep : (e :: l).findM? f s = if p e then .ok (some e) s else l.findM? f s := by
        rw [List.findM?,bind_ok (judges.1 hok)]
        cases p e <;> rfl
      rw [hstep]
      cases hp : p e with
      | true => simp [Judged,hok,hp]
      | false => simpa [Judged,hok,hp] using ih judges.2 stops.2
    · obtain ⟨err,herr⟩ := stops.1 hok
      refine ⟨fun h => absurd h.1 hok,fun _ => ⟨err,?_⟩⟩
      exact bind_error herr

end DuckOs.OrderedSearches
