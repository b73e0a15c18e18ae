import DuckOs.PageTableTree

namespace DuckOs.PageTableWalks
open ExecutionRules LittleEndianWords AddressModel PermissionFlags KernelMachine PageTableModel
open PageTableEntries RadixTree PageTableTree

variable {m m' m'' : Machine} {root f va g : ℕ} {S : ℕ → Prop} {p new q new' : List ℕ}

theorem reachIn_step (hq : reachIn m root q = some f) (i : ℕ) :
    reachIn m root (q ++ [i]) = if PageTableEntry.isValid (pteWord m f i) then
      some (PageTableEntry.ppn (pteWord m f i)) else none := by
  have hs : reachIn m root (q ++ [i]) = (reachIn m root q).bind _ := reach_snoc root q i
  rw [hs,hq]
  rfl

theorem findPteLoop_eq (l : List ℕ) (i : ℕ)
    (ram : ∀ q g, q.length ≤ l.length → reachIn m f q = some g → InRam g) :
    PageTable.findPteLoop (f * 4096) (l ++ [i]) m =
      .ok ((reachIn m f l).bind fun g =>
        if PageTableEntry.isValid (pteWord m g i) then some ⟨g, i⟩ else none) m := by
  induction l generalizing f with
  | nil =>
    have hf : InRam f := ram [] f (le_refl _) rfl
    rw [List.nil_append,PageTable.findPteLoop,bind_ok (pteArray_frame hf m),
      bind_ok (readPte_eq ⟨f,i⟩ m)]
    cases hv : PageTableEntry.isValid (pteWord m f i) <;> simp [reach,hv] <;> rfl
  | cons j l ih =>
    have hf : InRam f := ram [] f (Nat.zero_le _) rfl
    rw [List.cons_append,PageTable.findPteLoop,bind_ok (pteArray_frame hf m),
      bind_ok (readPte_eq ⟨f,j⟩ m)]
    have first : reachIn m f (j :: l) = if PageTableEntry.isValid (pteWord m f j) then
        reachIn m (PageTableEntry.ppn (pteWord m f j)) l else none := rfl
    rw [first]
    cases hv : PageTableEntry.isValid (pteWord m f j) with
    | false => simp only [Bool.not_false,if_true]; rfl
    | true =>
      have hn : reachIn m f [j] = some (PageTableEntry.ppn (pteWord m f j)) := by
        change (if PageTableEntry.isValid (pteWord m f j) then _ else _) = _
        rw [hv]
        rfl
      have hr : InRam (PageTableEntry.ppn (pteWord m f j)) := ram [j] _ (by simp) hn
      have he : (l ++ [i]).isEmpty = false := by simp
      simp only [Bool.not_true,Bool.false_eq_true,if_false,he,if_true]
      rw [ppnToPhys_frame hr]
      apply ih
      intro q g hq hg
      apply ram (j :: q) g (by simpa using hq)
      change (if PageTableEntry.isValid (pteWord m f j) then _ else _) = _
      rw [hv]
      exact hg

theorem findPte_eq {pt : PageTable} (t : Tree m root S)
    (hr : pt.rootPaddr = root * 4096) (va : ℕ) :
    PageTable.findPte pt va m =
      if checkUserVa va then .ok (slotAt m root va) m else .error .assertion m := by
  unfold PageTable.findPte
  have hidx := vaddrToPteVpn_eq va m
  cases hc : checkUserVa va with
  | false => rw [hc] at hidx; exact bind_error hidx
  | true =>
    rw [hc] at hidx
    rw [bind_ok hidx,hr,if_pos rfl]
    exact findPteLoop_eq (vaPath va) (vaIndex va) fun q g hq hg =>
      t.inRam g (t.members q g (by simp [vaPath] at hq; omega) hg)

theorem slotAt_eq_none : slotAt m root va = none ↔
    entryAt m root va = none := by
  unfold slotAt entryAt lookupIn lookup reachIn
  cases reach pteFormat (tableHeap m) root (vaPath va) with
  | none => simp
  | some f =>
    change (if PageTableEntry.isValid (pteWord m f (vaIndex va)) then _ else _) = none ↔
      (if PageTableEntry.isValid (pteWord m f (vaIndex va)) then _ else _) = none
    split <;> simp

theorem slotAt_eq_some {s : Slot} (h : slotAt m root va = some s) :
    reachIn m root (vaPath va) = some s.frame ∧ s.index = vaIndex va ∧
      PageTableEntry.isValid (pteWord m s.frame s.index) = true ∧
      entryAt m root va = some (pteWord m s.frame s.index) := by
  obtain ⟨f,hf,hs⟩ := Option.bind_eq_some_iff.mp h
  split at hs
  · rename_i hv
    cases hs
    refine ⟨hf,rfl,hv,?_⟩
    unfold entryAt
    rw [lookupIn,lookup_some hf]
    exact if_pos hv
  · cases hs

theorem entryAt_eq_some {w : ℕ} (h : entryAt m root va = some w) :
    ∃ s, slotAt m root va = some s ∧ pteWord m s.frame s.index = w := by
  cases hs : slotAt m root va with
  | none => rw [slotAt_eq_none.mp hs] at h; cases h
  | some s =>
    have he := (slotAt_eq_some hs).2.2.2
    rw [h] at he
    exact ⟨s,rfl,(Option.some.inj he).symm⟩

def OnPath (m : Machine) (root : ℕ) (p : List ℕ) (g : ℕ) : Prop :=
  ∃ a, a <+: p ∧ reachIn m root a = some g

structure Extended (m m' : Machine) (root : ℕ) (p new : List ℕ) : Prop where
  free : m.frameAllocator.free = new ++ m'.frameAllocator.free
  rest : m' = { m with ram := m'.ram, frameAllocator := m'.frameAllocator }
  ram : ∀ g, g ∉ new → ¬ OnPath m root p g → m'.ram g = m.ram g
  mono : ∀ q g, q.length < 3 → reachIn m root q = some g → reachIn m' root q = some g
  reached : ∀ q g, q.length < 3 → reachIn m' root q = some g →
    reachIn m root q = some g ∨ (g ∈ new ∧ q <+: p ∧ q ≠ [])
  separated : Separated pteFormat (tableHeap m') root 3

structure Created (m m' : Machine) (root : ℕ) (p new : List ℕ) : Prop
    extends Extended m m' root p new where
  lookup : ∀ q j, q.length = 2 → lookupIn m' root q j = lookupIn m root q j

theorem Created.refl (t : Tree m root S) (p : List ℕ) :
    Created m m root p [] :=
  ⟨⟨rfl,rfl,fun _ _ _ => rfl,fun _ _ _ h => h,fun _ _ _ h => .inl h,t.separated⟩,
    fun _ _ _ => rfl⟩

theorem Extended.trans (hl : p.length < 3) (h : Extended m m' root p new)
    (h' : Extended m' m'' root p new') : Extended m m'' root p (new ++ new') := by
  refine ⟨?_,?_,?_,?_,?_,h'.separated⟩
  · rw [h.free,h'.free,List.append_assoc]
  · rw [h'.rest,h.rest]
  · intro g hg hp
    simp only [List.mem_append,not_or] at hg
    rw [h'.ram g hg.2,h.ram g hg.1 hp]
    rintro ⟨a,ha,hr⟩
    have hal := ha.length_le
    rcases h.reached a g (by omega) hr with old | new
    · exact hp ⟨a,ha,old⟩
    · exact hg.1 new.1
  · intro q g hq hr
    exact h'.mono q g hq (h.mono q g hq hr)
  · intro q g hq hr
    rcases h'.reached q g hq hr with old | ⟨hn,hp,hne⟩
    · rcases h.reached q g hq old with old | ⟨hn,hp,hne⟩
      · exact .inl old
      · exact .inr ⟨List.mem_append_left _ hn,hp,hne⟩
    · exact .inr ⟨List.mem_append_right _ hn,hp,hne⟩

theorem Created.trans (hl : p.length < 3) (h : Created m m' root p new)
    (h' : Created m' m'' root p new') : Created m m'' root p (new ++ new') :=
  ⟨h.toExtended.trans hl h'.toExtended,fun q j hq => (h'.lookup q j hq).trans (h.lookup q j hq)⟩

theorem Extended.fresh (h : Extended m m' root p new) (hg : g ∈ new) :
    g ∈ m.frameAllocator.free ∧ g ∉ m'.frameAllocator.free := by
  have hn := m.frameAllocator.nodup
  rw [h.free,List.nodup_append] at hn
  refine ⟨?_,fun hf => hn.2.2 g hg g hf rfl⟩
  rw [h.free]
  exact List.mem_append_left _ hg

theorem Extended.free_sub (h : Extended m m' root p new) (hg : g ∈ m'.frameAllocator.free) :
    g ∈ m.frameAllocator.free := by
  rw [h.free]
  exact List.mem_append_right _ hg

theorem Extended.tree
    (h : Extended m m' root p new) (t : Tree m root S) : Tree m' root fun g => S g ∨ g ∈ new := by
  refine ⟨h.separated,?_,?_,?_,fun g hg => t.freeInRam g (h.free_sub hg)⟩
  · intro q g hq hr
    rcases h.reached q g hq hr with old | new
    · exact .inl (t.members q g hq old)
    · exact .inr new.1
  · rintro g (hs | hg)
    · exact t.inRam g hs
    · exact t.freeInRam g (h.fresh hg).1
  · rintro g (hs | hg) hf
    · exact t.notFree g hs (h.free_sub hf)
    · exact (h.fresh hg).2 hf

theorem created_grow {i x : ℕ} {rest : FrameAllocator} (t : Tree m root S)
    (hq : reachIn m root q = some f) (hl : q.length + 1 < 3) (hp : (q ++ [i]) <+: p)
    (hv : PageTableEntry.isValid (pteWord m f i) = false)
    (ha : m.frameAllocator.alloc = some (x, rest)) :
    Created m (putPte (takeFrame m x rest) ⟨f, i⟩ (PageTableEntry.new x PTEFlags.V)) root p [x] ∧
      reachIn (putPte (takeFrame m x rest) ⟨f, i⟩ (PageTableEntry.new x PTEFlags.V)) root
        (q ++ [i]) = some x := by
  have hfree := alloc_eq_some ha
  have hx := alloc_mem ha
  have hram := t.freeInRam x hx
  have hxS : ¬ S x := fun hs => t.notFree x hs hx
  have hfx : f ≠ x := fun hc => hxS (hc ▸ t.members q f (by omega) hq)
  generalize hm : putPte (takeFrame m x rest) ⟨f,i⟩ (PageTableEntry.new x PTEFlags.V) = m'
  have hword : pteWord m' f i = PageTableEntry.new x PTEFlags.V := by
    rw [← hm]
    exact pteWord_putPte_same _ ⟨f,i⟩ (new_lt _ _)
  have hxrow : m'.ram x = fun _ => 0 := by
    rw [← hm,putPte_ram_ne _ _ _ (Ne.symm hfx),takeFrame_ram_self]
  have hsame : ∀ g j, g ≠ x → ¬ (g = f ∧ j = i) → pteWord m' g j = pteWord m g j := by
    intro g j hg hne
    rw [← hm,pteWord_putPte_ne _ ⟨f,i⟩ _ hne]
    exact pteWord_congr (takeFrame_ram_ne m rest hg) j
  have gr : Grown pteFormat (tableHeap m) (tableHeap m') root 3 q f i x := by
    refine ⟨hq,hl,hv,?_,?_,?_,?_,hsame⟩
    · intro a hla hr
      exact hxS (t.members a x hla hr)
    · change PageTableEntry.isValid (pteWord m' f i) = true
      rw [hword,isValid_new]
      rfl
    · change PageTableEntry.ppn (pteWord m' f i) = x
      unfold InRam at hram
      rw [hword,ppn_new (by omega)]
    · intro j
      change PageTableEntry.isValid (readWord (m'.ram x) j) = false
      rw [hxrow,readWord_zero,isValid_zero]
  have hreach := gr.reach_eq t.separated
  refine ⟨⟨⟨?_,?_,?_,?_,?_,gr.separated t.separated⟩,?_⟩,?_⟩
  · rw [hfree,← hm]
    rfl
  · rw [← hm]
    rfl
  · intro g hg hop
    have hgx : g ≠ x := by simpa using hg
    have hgf : g ≠ f := by
      rintro rfl
      exact hop ⟨q,(List.prefix_append q [i]).trans hp,hq⟩
    rw [← hm,putPte_ram_ne _ _ _ hgf,takeFrame_ram_ne _ _ hgx]
  · intro a g hla hr
    have hne : a ≠ q ++ [i] := by
      rintro rfl
      rw [reachIn_step hq,hv] at hr
      cases hr
    rw [reachIn,hreach a hla,if_neg hne]
    exact hr
  · intro a g hla hr
    rw [reachIn,hreach a hla] at hr
    split_ifs at hr with hae
    · cases hr
      rw [hae]
      exact .inr ⟨List.mem_singleton_self x,hp,by simp⟩
    · exact .inl hr
  · intro a j hla
    exact gr.lookup_eq t.separated a (by omega) j
  · rw [reachIn,hreach _ (by simp; omega),if_pos rfl]

theorem findPteCreateLoop_holds (hp : p.length < 3) (i : ℕ) :
    ∀ (l q : List ℕ) (f : ℕ) (m : Machine) (pt : PageTable) (S : ℕ → Prop),
      q ++ l = p → Tree m root S → reachIn m root q = some f →
      Holds (PageTable.findPteCreateLoop pt (f * 4096) (l ++ [i])) m
        (fun r m' => ∃ new, Created m m' root p new ∧ new.length ≤ l.length ∧
          r.1 = { pt with frames := pt.frames ++ new } ∧
          reachIn m' root p = some r.2.frame ∧ r.2.index = i)
        (fun e m' => e = .outOfFrames ∧ m.frameAllocator.free.length < l.length ∧
          ∃ new, Created m m' root p new) := by
  intro l
  induction l with
  | nil =>
    intro q f m pt S hql t hq
    rw [List.append_nil] at hql
    subst hql
    have hf := t.inRam f (t.members q f hp hq)
    rw [List.nil_append,PageTable.findPteCreateLoop]
    unfold Holds
    rw [bind_ok (pteArray_frame hf m)]
    exact ⟨[],Created.refl t q,le_refl _,by simp,hq,rfl⟩
  | cons j l ih =>
    intro q f m pt S hql t hq
    have hf := t.inRam f (t.members q f (by rw [← hql] at hp; simp at hp; omega) hq)
    have hqj : (q ++ [j]) ++ l = p := by rw [← hql]; simp
    have hlen : q.length + 1 < 3 := by rw [← hql] at hp; simp at hp; omega
    obtain ⟨k,r,hk⟩ : ∃ k r, l ++ [i] = k :: r := by cases l <;> simp
    rw [List.cons_append,hk,PageTable.findPteCreateLoop]
    · unfold Holds
      rw [bind_ok (pteArray_frame hf m),bind_ok (readPte_eq ⟨f,j⟩ m)]
      cases hv : PageTableEntry.isValid (pteWord m f j) with
      | true =>
        have hn : reachIn m root (q ++ [j]) = some (PageTableEntry.ppn (pteWord m f j)) := by
          rw [reachIn_step hq,hv,if_pos rfl]
        have hr := t.inRam _ (t.members _ _ (by simp; omega) hn)
        rw [if_pos rfl,ppnToPhys_frame hr,← hk]
        refine (ih (q ++ [j]) _ m pt S hqj t hn).mono ?_ ?_
        · rintro r m' ⟨new,hc,hlen,rest⟩
          exact ⟨new,hc,hlen.trans (Nat.le_succ _),rest⟩
        · rintro e m' ⟨he,hfew,new⟩
          exact ⟨he,hfew.trans (Nat.lt_succ_self _),new⟩
      | false =>
        simp only [Bool.false_eq_true,if_false]
        cases ha : m.frameAllocator.alloc with
        | none =>
          rw [bind_error (allocFrameUnwrap_none ha)]
          exact ⟨rfl,by rw [alloc_eq_none ha]; simp,[],Created.refl t p⟩
        | some xr =>
          obtain ⟨x,rest⟩ := xr
          have hx := alloc_mem ha
          have hram := t.freeInRam x hx
          obtain ⟨made,hnew⟩ := created_grow t hq hlen ⟨l,hqj⟩ hv ha
          have hppn : PageTableEntry.ppn (PageTableEntry.new x PTEFlags.V) = x := by
            unfold InRam at hram
            exact ppn_new (by omega) _
          rw [bind_ok (allocFrameUnwrap_some ha hram),bind_ok (writePte_eq _ _ _),hppn,
            ppnToPhys_frame hram,← hk]
          refine (ih (q ++ [j]) x _ { pt with frames := pt.frames ++ [x] } _ hqj
            (made.tree t) hnew).mono ?_ ?_
          · rintro ⟨pt',s⟩ m' ⟨new,hc,hnl,hpt,hs,hi⟩
            refine ⟨[x] ++ new,made.trans hp hc,?_,?_,hs,hi⟩
            · simpa using hnl
            · rw [hpt,List.append_assoc]
          · rintro e m' ⟨he,hfew,new,hc⟩
            refine ⟨he,?_,[x] ++ new,made.trans hp hc⟩
            rw [made.free]
            simpa using hfew
    · intro hr
      cases hr

end DuckOs.PageTableWalks
