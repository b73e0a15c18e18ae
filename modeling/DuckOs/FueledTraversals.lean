import Mathlib

/-! Loading a tree level by level, each node before its children and the children in order. The
first error ends the traversal; one error stands for a traversal that does not come back. -/
namespace DuckOs.FueledTraversals
open Relation

variable {α β ε δ : Type} {f : α → Except ε β} {e : ε} {a : α} {l : List α}

theorem bind_eq_error_iff {x : Except ε α} :
    (x >>= f) = .error e ↔ x = .error e ∨ ∃ a, x = .ok a ∧ f a = .error e := by
  cases x with
  | error e' => exact ⟨fun h => .inl (by cases h; rfl),by rintro (h | ⟨a,h,-⟩) <;> cases h; rfl⟩
  | ok a =>
    constructor
    · intro h
      exact .inr ⟨a,rfl,h⟩
    · rintro (h | ⟨a',h,hf⟩)
      · cases h
      · cases h
        exact hf

theorem bind_eq_ok_iff {x : Except ε α} {b : β} :
    (x >>= f) = .ok b ↔ ∃ a, x = .ok a ∧ f a = .ok b := by
  cases x with
  | error e' => exact ⟨nofun,fun ⟨_,h,_⟩ => nomatch h⟩
  | ok a => exact ⟨fun h => ⟨a,rfl,h⟩,fun ⟨a',h,hf⟩ => by cases h; exact hf⟩

theorem mapError_eq_error_iff {x : Except δ α} {g : δ → ε} :
    x.mapError g = .error e ↔ ∃ d, x = .error d ∧ g d = e := by
  cases x with
  | error d => exact ⟨fun h => ⟨d,rfl,Except.error.inj h⟩,by rintro ⟨d',h,rfl⟩; cases h; rfl⟩
  | ok a => exact ⟨nofun,fun ⟨_,h,_⟩ => nomatch h⟩

theorem mapError_eq_ok_iff {x : Except δ α} {g : δ → ε} : x.mapError g = .ok a ↔ x = .ok a := by
  cases x with
  | error d => exact ⟨nofun,nofun⟩
  | ok b => exact ⟨fun h => congrArg Except.ok (Except.ok.inj h),
      fun h => congrArg Except.ok (Except.ok.inj h)⟩

section Lists

variable {g : α → Except ε β} {before after : List α} {x : α}

theorem mapM_cons_ok {y : β} (h : f x = .ok y) (l : List α) :
    (x :: l).mapM f = (y :: ·) <$> l.mapM f := by
  rw [List.mapM_cons,h]
  cases l.mapM f with
  | error e => rfl
  | ok ys => rfl

theorem mapM_cons_error (h : f x = .error e) (l : List α) : (x :: l).mapM f = .error e := by
  rw [List.mapM_cons,h]
  rfl

theorem map_eq_error_iff {γ : Type} {h : β → γ} {r : Except ε β} :
    h <$> r = .error e ↔ r = .error e := by
  cases r with
  | error e' => exact ⟨fun heq => by cases heq; rfl,fun heq => by cases heq; rfl⟩
  | ok b => exact ⟨nofun,nofun⟩

theorem mapM_ne_error (h : ∀ before x after, l = before ++ x :: after →
    (∀ y ∈ before, ∃ b, f y = .ok b) → f x ≠ .error e) : l.mapM f ≠ .error e := by
  induction l with
  | nil => nofun
  | cons a l ih =>
    have ha := h [] a l rfl nofun
    cases hfa : f a with
    | error e' =>
      rw [mapM_cons_error hfa]
      rw [hfa] at ha
      simpa using ha
    | ok b =>
      rw [mapM_cons_ok hfa,ne_eq,map_eq_error_iff]
      apply ih
      intro before x after hl hbefore
      apply h (a :: before) x after (by rw [hl]; rfl)
      intro y hy
      rcases List.mem_cons.mp hy with rfl | hy
      · exact ⟨b,hfa⟩
      · exact hbefore y hy

theorem mapM_reaches (h : (before ++ x :: after).mapM f ≠ .error e)
    (hbefore : ∀ y ∈ before, f y ≠ .error e → ∃ b, f y = .ok b) : f x ≠ .error e := by
  induction before with
  | nil =>
    intro hx
    exact h (mapM_cons_error hx after)
  | cons a before ih =>
    have ha : f a ≠ .error e := fun hfa => h (mapM_cons_error hfa _)
    obtain ⟨b,hfa⟩ := hbefore a List.mem_cons_self ha
    rw [List.cons_append,mapM_cons_ok hfa,ne_eq,map_eq_error_iff] at h
    exact ih h fun y hy => hbefore y (List.mem_cons_of_mem a hy)

theorem mapM_congr_of_ne (h : l.mapM f ≠ .error e) (hfg : ∀ x, f x ≠ .error e → g x = f x) :
    l.mapM g = l.mapM f := by
  induction l with
  | nil => rfl
  | cons a l ih =>
    have ha : f a ≠ .error e := fun hfa => h (mapM_cons_error hfa l)
    have hga := hfg a ha
    cases hfa : f a with
    | error e' =>
      rw [hfa] at hga
      rw [mapM_cons_error hfa,mapM_cons_error hga]
    | ok b =>
      rw [hfa] at hga
      rw [mapM_cons_ok hfa,ne_eq,map_eq_error_iff] at h
      rw [mapM_cons_ok hfa,mapM_cons_ok hga,ih h]

theorem mapM_ok_mem {ys : List β} (h : l.mapM f = .ok ys) : ∀ x ∈ l, ∃ y, f x = .ok y := by
  induction l generalizing ys with
  | nil => nofun
  | cons a l ih =>
    cases hfa : f a with
    | error e =>
      rw [mapM_cons_error hfa] at h
      cases h
    | ok b =>
      rw [mapM_cons_ok hfa] at h
      cases hl : l.mapM f with
      | error e =>
        rw [hl] at h
        cases h
      | ok rest =>
        intro x hx
        rcases List.mem_cons.mp hx with rfl | hx
        · exact ⟨b,hfa⟩
        · exact ih hl x hx

theorem mem_of_mapM_ok {ys : List β} {y : β} (h : l.mapM f = .ok ys) (hy : y ∈ ys) :
    ∃ x ∈ l, f x = .ok y := by
  induction l generalizing ys with
  | nil =>
    cases h
    cases hy
  | cons a l ih =>
    simp only [List.mapM_cons,bind_eq_ok_iff] at h
    obtain ⟨b,hb,rest,hrest,hcons⟩ := h
    cases hcons
    rcases List.mem_cons.mp hy with rfl | hy
    · exact ⟨a,List.mem_cons_self,hb⟩
    · obtain ⟨x,hx,hfx⟩ := ih hrest hy
      exact ⟨x,List.mem_cons_of_mem a hx,hfx⟩

theorem mapM_ok (h : ∀ x ∈ l, ∃ y, f x = .ok y) : ∃ ys, l.mapM f = .ok ys := by
  induction l with
  | nil => exact ⟨[],rfl⟩
  | cons a l ih =>
    obtain ⟨y,hy⟩ := h a List.mem_cons_self
    obtain ⟨ys,hys⟩ := ih fun x hx => h x (List.mem_cons_of_mem a hx)
    refine ⟨y :: ys,?_⟩
    rw [mapM_cons_ok hy,hys]
    rfl

end Lists

section Repeats

variable {κ : Type} {R : α → α → Prop} (key : α → κ)

/-- Nothing is met again behind itself; `key` says what is the same. -/
def NoRepeat (R : α → α → Prop) (a : α) : Prop :=
  ∀ b c, ReflTransGen R a b → TransGen R b c → key b ≠ key c

variable {key}

theorem noRepeat_of_acc
    (hsim : ∀ {a a' b}, R a b → key a = key a' → ∃ b', R a' b' ∧ key b = key b')
    (h : Acc (fun b a => R a b) a) : NoRepeat key R a := by
  have hlift : ∀ {a a' b}, TransGen R a b → key a = key a' →
      ∃ b', TransGen R a' b' ∧ key b = key b' := by
    intro a a' b h hkey
    induction h with
    | single h =>
      obtain ⟨b',hb',hsame⟩ := hsim h hkey
      exact ⟨b',.single hb',hsame⟩
    | tail _ h ih =>
      obtain ⟨c',hc',hsame⟩ := ih
      obtain ⟨b',hb',hsame'⟩ := hsim h hsame
      exact ⟨b',hc'.tail hb',hsame'⟩
  intro b c hab
  have hacc : Acc (TransGen fun b a => R a b) b := by
    induction hab with
    | refl => exact h.transGen
    | tail _ h ih => exact ih.inv (.single h)
  induction hacc generalizing c with
  | intro b _ ih =>
    intro hbc hkey
    obtain ⟨c',hc',hsame⟩ := hlift hbc hkey
    exact ih c (transGen_swap.mpr hbc) c' (hab.trans hbc.to_reflTransGen) hc' hsame

theorem acc_of_noRepeat {keys : Finset κ} (hkeys : ∀ {a b}, R a b → key b ∈ keys)
    (h : NoRepeat key R a) : Acc (fun b a => R a b) a := by
  by_contra hacc
  obtain ⟨f,rfl,hf⟩ := not_acc_iff_exists_descending_chain.mp hacc
  have hreach : ∀ n k, ReflTransGen R (f n) (f (n + k)) := by
    intro n k
    induction k with
    | zero => exact .refl
    | succ k ih => exact ih.tail (hf (n + k))
  obtain ⟨i,j,hne,hkey⟩ := Finite.exists_ne_map_eq_of_infinite
    fun n => (⟨key (f (n + 1)),hkeys (hf n)⟩ : keys)
  wlog hij : i < j generalizing i j
  · exact this j i hne.symm hkey.symm (by omega)
  refine h (f (i + 1)) (f (j + 1)) (Nat.zero_add (i + 1) ▸ hreach 0 (i + 1)) ?_
    (congrArg Subtype.val hkey)
  have hrest := hreach (i + 2) (j - (i + 1))
  rw [show i + 2 + (j - (i + 1)) = j + 1 by omega] at hrest
  exact .head' (hf (i + 1)) hrest

theorem noRepeat_of_last (h : ∀ b, ¬ R a b) : NoRepeat key R a := by
  intro b c hab hbc
  rcases hab.cases_head with rfl | ⟨d,hd,-⟩
  · obtain ⟨d,hd,-⟩ := TransGen.head'_iff.mp hbc
    exact (h d hd).elim
  · exact (h d hd).elim

end Repeats

section Trees

inductive Tree (α β : Type) where
  | node (label : α) (data : β) (children : List (Tree α β))

variable (level : α → Except ε (β × List α)) (stuck : ε)

def traverse : ℕ → α → Except ε (Tree α β)
  | 0, _ => .error stuck
  | n + 1, a => do
    let (data, children) ← level a
    let trees ← children.mapM fun c => traverse n c
    pure (.node a data trees)

inductive Built : α → Prop
  | intro {a : α} {data : β} {children : List α} : level a = .ok (data, children) →
      (∀ c ∈ children, Built c) → Built a

def Visits (a b : α) : Prop :=
  ∃ data before after, level a = .ok (data, before ++ b :: after) ∧ ∀ c ∈ before, Built level c

inductive Tame : α → Prop
  | intro {a : α} : level a ≠ .error stuck → (∀ b, Visits level a b → Tame b) → Tame a

variable {level stuck} {m n : ℕ}

theorem traverse_error (h : level a = .error e) (n : ℕ) :
    traverse level stuck (n + 1) a = .error e := by
  simp only [traverse,h]
  rfl

theorem traverse_ok {data : β} {children : List α} (h : level a = .ok (data, children)) (n : ℕ) :
    traverse level stuck (n + 1) a =
      (fun trees => .node a data trees) <$> children.mapM (traverse level stuck n) := by
  simp only [traverse,h]
  change (children.mapM (traverse level stuck n) >>= fun trees => pure (Tree.node a data trees)) = _
  cases children.mapM (traverse level stuck n) with
  | error e => rfl
  | ok trees => rfl

theorem traverse_mono (h : traverse level stuck m a ≠ .error stuck) (hmn : m ≤ n) :
    traverse level stuck n a = traverse level stuck m a := by
  induction m generalizing n a with
  | zero => exact absurd rfl h
  | succ m ih =>
    obtain ⟨n,rfl⟩ : ∃ k, n = k + 1 := ⟨n - 1,by omega⟩
    cases hlevel : level a with
    | error e => rw [traverse_error hlevel,traverse_error hlevel]
    | ok r =>
      rw [traverse_ok hlevel,ne_eq,map_eq_error_iff] at h
      rw [traverse_ok hlevel,traverse_ok hlevel]
      congr 1
      exact mapM_congr_of_ne h fun x hx => ih hx (by omega)

theorem built_of_traverse {t : Tree α β} (h : traverse level stuck n a = .ok t) :
    Built level a := by
  induction n generalizing a t with
  | zero => cases h
  | succ n ih =>
    cases hlevel : level a with
    | error e =>
      rw [traverse_error hlevel] at h
      cases h
    | ok r =>
      obtain ⟨data,children⟩ := r
      rw [traverse_ok hlevel] at h
      cases htrees : children.mapM (traverse level stuck n) with
      | error e =>
        rw [htrees] at h
        cases h
      | ok trees =>
        refine .intro hlevel ?_
        intro c hc
        obtain ⟨t',ht'⟩ := mapM_ok_mem htrees c hc
        exact ih ht'

theorem exists_depth {P : ℕ → α → Prop} (hP : ∀ a m n, P m a → m ≤ n → P n a)
    (h : ∀ a ∈ l, ∃ n, P n a) : ∃ n, ∀ a ∈ l, P n a := by
  induction l with
  | nil => exact ⟨0,nofun⟩
  | cons a l ih =>
    obtain ⟨m,hm⟩ := h a List.mem_cons_self
    obtain ⟨n,hn⟩ := ih fun b hb => h b (List.mem_cons_of_mem a hb)
    refine ⟨max m n,?_⟩
    intro b hb
    rcases List.mem_cons.mp hb with rfl | hb
    · exact hP b m _ hm (le_max_left m n)
    · exact hP b n _ (hn b hb) (le_max_right m n)

theorem traverse_of_built (stuck : ε) (h : Built level a) :
    ∃ n t, traverse level stuck n a = .ok t := by
  induction h with
  | @intro a data children hlevel _ ih =>
    obtain ⟨n,hn⟩ := exists_depth (P := fun n a => ∃ t, traverse level stuck n a = .ok t)
      (fun a m n hm hmn => by
        obtain ⟨t,ht⟩ := hm
        exact ⟨t,(traverse_mono (by rw [ht]; nofun) hmn).trans ht⟩) ih
    obtain ⟨trees,htrees⟩ := mapM_ok hn
    refine ⟨n + 1,.node a data trees,?_⟩
    rw [traverse_ok hlevel,htrees]
    rfl

theorem traverse_finishes_iff :
    (∃ n, traverse level stuck n a ≠ .error stuck) ↔ Tame level stuck a := by
  constructor
  · rintro ⟨n,hn⟩
    induction n generalizing a with
    | zero => exact absurd rfl hn
    | succ n ih =>
      refine .intro (fun hlevel => hn (traverse_error hlevel n)) ?_
      rintro b ⟨data,before,after,hlevel,hbuilt⟩
      apply ih
      rw [traverse_ok hlevel,ne_eq,map_eq_error_iff] at hn
      apply mapM_reaches hn
      intro y hy hne
      obtain ⟨m,t,ht⟩ := traverse_of_built stuck (hbuilt y hy)
      refine ⟨t,?_⟩
      rw [← traverse_mono hne (le_max_left n m),traverse_mono (by rw [ht]; nofun)
        (le_max_right n m),ht]
  · intro h
    induction h with
    | @intro a hlevel _ ih =>
      cases hr : level a with
      | error e =>
        refine ⟨1,?_⟩
        rw [traverse_error hr]
        rw [hr] at hlevel
        simpa using hlevel
      | ok r =>
        obtain ⟨data,children⟩ := r
        obtain ⟨n,hn⟩ := exists_depth
          (P := fun n c => Visits level a c → traverse level stuck n c ≠ .error stuck)
          (l := children)
          (fun c m n hm hmn hv => by rw [traverse_mono (hm hv) hmn]; exact hm hv)
          fun c _ => by
            by_cases hv : Visits level a c
            · obtain ⟨n,hn⟩ := ih c hv
              exact ⟨n,fun _ => hn⟩
            · exact ⟨0,fun hv' => absurd hv' hv⟩
        refine ⟨n + 1,?_⟩
        rw [traverse_ok hr,ne_eq,map_eq_error_iff]
        apply mapM_ne_error
        rintro before x after rfl hbefore
        apply hn x (by simp)
        refine ⟨data,before,after,hr,?_⟩
        intro c hc
        obtain ⟨t,ht⟩ := hbefore c hc
        exact built_of_traverse ht

theorem tame_iff : Tame level stuck a ↔ Acc (fun b a => Visits level a b) a ∧
    ∀ b, ReflTransGen (Visits level) a b → level b ≠ .error stuck := by
  constructor
  · intro h
    induction h with
    | intro hlevel _ ih =>
      refine ⟨.intro _ fun b hb => (ih b hb).1,fun b hb => ?_⟩
      rcases hb.cases_head with rfl | ⟨c,hc,hrest⟩
      · exact hlevel
      · exact (ih c hc).2 b hrest
  · rintro ⟨hacc,hlevel⟩
    induction hacc with
    | intro a _ ih =>
      exact .intro (hlevel a .refl) fun b hb => ih b hb fun c hc => hlevel c (hc.head hb)

section Keys

variable {κ : Type} {key : α → κ}
  (hlevel : ∀ {a a' data children}, level a = .ok (data, children) → key a = key a' →
    ∃ data' children', level a' = .ok (data', children') ∧ children'.map key = children.map key)
include hlevel

theorem built_congr {a' : α} (h : Built level a) (hkey : key a = key a') : Built level a' := by
  induction h generalizing a' with
  | intro hok _ ih =>
    obtain ⟨data',children',hok',hsame⟩ := hlevel hok hkey
    refine .intro hok' fun c hc => ?_
    have hmem := List.mem_map_of_mem (f := key) hc
    rw [hsame] at hmem
    obtain ⟨c',hc',hkey'⟩ := List.mem_map.mp hmem
    exact ih c' hc' hkey'

theorem visits_congr {a' b : α} (h : Visits level a b) (hkey : key a = key a') :
    ∃ b', Visits level a' b' ∧ key b = key b' := by
  obtain ⟨data,before,after,hok,hbuilt⟩ := h
  obtain ⟨data',children',hok',hsame⟩ := hlevel hok hkey
  rw [List.map_append,List.map_cons] at hsame
  obtain ⟨before',rest,rfl,hbefore,hrest⟩ := List.map_eq_append_iff.mp hsame
  obtain ⟨b',after',rfl,hb',-⟩ := List.map_eq_cons_iff.mp hrest
  refine ⟨b',⟨data',before',after',hok',fun c hc => ?_⟩,hb'.symm⟩
  have hmem := List.mem_map_of_mem (f := key) hc
  rw [hbefore] at hmem
  obtain ⟨c',hc',hkey'⟩ := List.mem_map.mp hmem
  exact built_congr hlevel (hbuilt c' hc') hkey'

end Keys

end Trees

end DuckOs.FueledTraversals
