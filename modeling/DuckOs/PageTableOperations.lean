import DuckOs.PageTableWalks

namespace DuckOs.PageTableOperations
open ExecutionRules AddressModel PermissionFlags KernelMachine PageTableModel
open PageTableEntries RadixTree PageTableTree PageTableWalks

variable {m : Machine} {root w va va' : ℕ} {new : List ℕ} {pt : PageTable} {S : ℕ → Prop}

structure Edited (m m' : Machine) (root : ℕ) (p : List ℕ) (i : ℕ) (new : List ℕ) (o : Option ℕ) :
    Prop extends Extended m m' root p new where
  lookup : ∀ q j, q.length = 2 →
    lookupIn m' root q j = if q = p ∧ j = i then o else lookupIn m root q j

theorem putPte_edited {m₁ : Machine} {f : ℕ} {p : List ℕ} (hp : p.length = 2)
    (h : Created m m₁ root p new) (hf : reachIn m₁ root p = some f) (i : ℕ) (hw : w < 2 ^ 64) :
    Edited m (putPte m₁ ⟨f, i⟩ w) root p i new
      (if PageTableEntry.isValid w then some w else none) := by
  have hword : pteWord (putPte m₁ ⟨f,i⟩ w) f i = w := pteWord_putPte_same m₁ ⟨f,i⟩ hw
  have same : ∀ g j, ¬ (g = f ∧ j = i) →
      tableHeap (putPte m₁ ⟨f,i⟩ w) g j = tableHeap m₁ g j :=
    fun g j hne => pteWord_putPte_ne m₁ ⟨f,i⟩ w hne
  have other : ∀ g j, g ≠ f → tableHeap (putPte m₁ ⟨f,i⟩ w) g j = tableHeap m₁ g j :=
    fun g j hg => same g j fun hc => hg hc.1
  have hreach := reach_leaf_update h.separated hf (by omega) other
  refine ⟨⟨h.free,?_,?_,?_,?_,?_⟩,?_⟩
  · conv_lhs => rw [putPte,setRow,h.rest]
    rfl
  · intro g hg hop
    have hgf : g ≠ f := by
      rintro rfl
      rcases h.reached p g (by omega) hf with old | new
      · exact hop ⟨p,List.prefix_rfl,old⟩
      · exact hg new.1
    rw [putPte_ram_ne _ _ _ hgf,h.ram g hg hop]
  · intro q g hq hr
    rw [reachIn,hreach q hq]
    exact h.mono q g hq hr
  · intro q g hq hr
    rw [reachIn,hreach q hq] at hr
    exact h.reached q g hq hr
  · exact separated_leaf_update h.separated hf (by omega) other
  · intro q j hq
    have hl := lookup_leaf_update h.separated hf (by omega) same q (by omega) j
    rw [lookupIn,hl]
    by_cases hqp : q = p ∧ j = i
    · rw [if_pos hqp,if_pos hqp]
      change (if PageTableEntry.isValid (pteWord _ f i) then some (pteWord _ f i) else none) = _
      rw [hword]
    · rw [if_neg hqp,if_neg hqp]
      exact h.lookup q j hq

theorem vaPath_length (va : ℕ) : (vaPath va).length = 2 := rfl

section MapOne

theorem findPteCreate_holds (t : Tree m root S) (hr : pt.rootPaddr = root * 4096)
    (hc : checkUserVa va = true) : Holds (PageTable.findPteCreate pt va) m
      (fun r m' => ∃ new, Created m m' root (vaPath va) new ∧ new.length ≤ 2 ∧
        r.1 = { pt with frames := pt.frames ++ new } ∧
        reachIn m' root (vaPath va) = some r.2.frame ∧ r.2.index = vaIndex va)
      (fun e m' => e = .outOfFrames ∧ m.frameAllocator.free.length < 2 ∧
        ∃ new, Created m m' root (vaPath va) new) := by
  have hidx := vaddrToPteVpn_eq va m
  rw [hc,if_pos rfl] at hidx
  unfold PageTable.findPteCreate Holds
  rw [bind_ok hidx]
  have short : (vaPath va).length < 3 := by rw [vaPath_length]; omega
  have loop := findPteCreateLoop_holds short (vaIndex va) (vaPath va) [] root m pt S rfl t rfl
  rw [← hr] at loop
  exact loop

def mappedWord (ppn : ℕ) (flags : PTEFlags) : ℕ :=
  PageTableEntry.new ppn (flags ||| PTEFlags.A ||| PTEFlags.D ||| PTEFlags.V)

theorem mapOne_holds (t : Tree m root S) (hr : pt.rootPaddr = root * 4096) (vpn ppn : ℕ)
    (flags : PTEFlags) :
    Holds (PageTable.mapOne pt vpn ppn flags) m
      (fun pt' m' => checkUserVa (vpnShift vpn) = true ∧ entryAt m root (vpnShift vpn) = none ∧
        ∃ new, pt' = { pt with frames := pt.frames ++ new } ∧ new.length ≤ 2 ∧
          Edited m m' root (vaPath (vpnShift vpn)) (vaIndex (vpnShift vpn)) new
            (some (mappedWord ppn flags)))
      (fun e m' => (e = .assertion ∧ checkUserVa (vpnShift vpn) = false ∧ m' = m) ∨
        (checkUserVa (vpnShift vpn) = true ∧
          (e = .outOfFrames ∧ m.frameAllocator.free.length < 2 ∨
            e = .explicit ∧ entryAt m root (vpnShift vpn) ≠ none) ∧
          ∃ new, Created m m' root (vaPath (vpnShift vpn)) new)) := by
  refine holds_bind_ite (vpnToVirt_eq vpn m) (fun hc => ?_) fun hc => .inl ⟨rfl,hc,rfl⟩
  refine ((findPteCreate_holds t hr hc).onError
    fun e m' h => .inr ⟨hc,.inl ⟨h.1,h.2.1⟩,h.2.2⟩).bind ?_
  rintro ⟨pt',s⟩ m₁ ⟨new,made,hnew,hpt,hf,hi⟩
  dsimp only at hpt hf hi ⊢
  have hold : entryAt m root (vpnShift vpn) =
      if PageTableEntry.isValid (pteWord m₁ s.frame s.index) then
        some (pteWord m₁ s.frame s.index) else none := by
    rw [entryAt,← made.lookup _ _ (vaPath_length _),lookupIn,lookup_some hf,← hi]
    rfl
  unfold Holds
  rw [bind_ok (readPte_eq s m₁)]
  cases hv : PageTableEntry.isValid (pteWord m₁ s.frame s.index) with
  | true =>
    rw [hv,if_pos rfl] at hold
    exact .inr ⟨hc,.inr ⟨rfl,by rw [hold]; simp⟩,new,made⟩
  | false =>
    rw [hv] at hold
    simp only [Bool.false_eq_true,if_false]
    refine ⟨hc,hold,new,hpt,hnew,?_⟩
    have hvalid : PageTableEntry.isValid (mappedWord ppn flags) = true := isValid_new_valid _ _
    have hed := putPte_edited (vaPath_length _) made hf s.index (new_lt ppn
      (flags ||| PTEFlags.A ||| PTEFlags.D ||| PTEFlags.V))
    change Edited _ _ _ _ _ _ (if PageTableEntry.isValid (mappedWord ppn flags) then
      some (mappedWord ppn flags) else none) at hed
    rw [hvalid,if_pos rfl] at hed
    rw [← hi]
    exact hed

end MapOne

section Rewrites

theorem putPte_slotAt_edited (t : Tree m root S) {s : Slot} (hs : slotAt m root va = some s)
    (hw : w < 2 ^ 64) : Edited m (putPte m s w) root (vaPath va) (vaIndex va) []
      (if PageTableEntry.isValid w then some w else none) := by
  obtain ⟨hf,hi,-,-⟩ := slotAt_eq_some hs
  have hed := putPte_edited (vaPath_length va) (Created.refl t (vaPath va)) hf s.index hw
  rw [← hi]
  exact hed

theorem edited_refl (t : Tree m root S) (h : entryAt m root va = none) :
    Edited m m root (vaPath va) (vaIndex va) [] none := by
  refine ⟨(Created.refl t (vaPath va)).toExtended,?_⟩
  intro q j hq
  split_ifs with hqp
  · rw [hqp.1,hqp.2]
    exact h
  · rfl

theorem unmap_holds (t : Tree m root S) (hr : pt.rootPaddr = root * 4096) (vpn : ℕ) :
    Holds (PageTable.unmap pt vpn) m
      (fun _ m' => checkUserVa (vpnShift vpn) = true ∧
        Edited m m' root (vaPath (vpnShift vpn)) (vaIndex (vpnShift vpn)) [] none)
      (fun e m' => e = .assertion ∧ checkUserVa (vpnShift vpn) = false ∧ m' = m) := by
  refine holds_bind_ite (vpnToVirt_eq vpn m) (fun hc => ?_) fun hc => ⟨rfl,hc,rfl⟩
  have hfind := findPte_eq t hr (vpnShift vpn)
  rw [hc,if_pos rfl] at hfind
  refine holds_bind_ok hfind ?_
  cases hs : slotAt m root (vpnShift vpn) with
  | none => exact holds_pure ⟨hc,edited_refl t (slotAt_eq_none.mp hs)⟩
  | some s =>
    have hvalid := (slotAt_eq_some hs).2.2.1
    refine holds_bind_ok (readPte_eq s m) (holds_assertThat (fun _ => ?_) fun hv => ?_)
    · refine holds_ok (writePte_eq _ _ _) ⟨hc,?_⟩
      have hed := putPte_slotAt_edited t hs (w := PageTableEntry.empty) (by decide)
      rwa [show PageTableEntry.isValid PageTableEntry.empty = false from isValid_zero] at hed
    · rw [hvalid] at hv
      cases hv

theorem modifyFlags_holds (t : Tree m root S) (hr : pt.rootPaddr = root * 4096) (vpn : ℕ)
    (flags : PTEFlags) :
    Holds (PageTable.modifyFlags pt vpn flags) m
      (fun _ m' => checkUserVa (vpnShift vpn) = true ∧
        ∃ w, w < 2 ^ 64 ∧ entryAt m root (vpnShift vpn) = some w ∧
        Edited m m' root (vaPath (vpnShift vpn)) (vaIndex (vpnShift vpn)) []
          (some (PageTable.replaceFlags w flags)))
      (fun e m' => m' = m ∧ ((e = .assertion ∧ checkUserVa (vpnShift vpn) = false) ∨
        (e = .unwrapNone ∧ entryAt m root (vpnShift vpn) = none))) := by
  refine holds_bind_ite (vpnToVirt_eq vpn m) (fun hc => ?_) fun hc => ⟨rfl,.inl ⟨rfl,hc⟩⟩
  have hfind := findPte_eq t hr (vpnShift vpn)
  rw [hc,if_pos rfl] at hfind
  unfold PageTable.translateVaToPte Holds
  rw [bind_ok hfind]
  cases hs : slotAt m root (vpnShift vpn) with
  | none => exact ⟨rfl,.inr ⟨rfl,slotAt_eq_none.mp hs⟩⟩
  | some s =>
    obtain ⟨-,-,hvalid,hentry⟩ := slotAt_eq_some hs
    have hw := pteWord_lt m s.frame s.index
    refine ⟨hc,_,hw,hentry,?_⟩
    have hed := putPte_slotAt_edited t hs (replaceFlags_lt hw flags)
    rwa [isValid_replaceFlags hw,hvalid,if_pos rfl] at hed

end Rewrites

theorem path_eq_iff (h : checkUserVa va = true) (h' : checkUserVa va' = true) :
    (vaPath va' = vaPath va ∧ vaIndex va' = vaIndex va) ↔ va' / 4096 = va / 4096 := by
  rw [checkUserVa_iff] at h h'
  simp only [vaPath,vaIndex,pteVpn_eq,List.cons.injEq,and_true]
  omega

theorem Edited.entry {m' : Machine} {o : Option ℕ}
    (h : Edited m m' root (vaPath va) (vaIndex va) new o) (hc : checkUserVa va = true)
    (hc' : checkUserVa va' = true) :
    entryAt m' root va' = if va' / 4096 = va / 4096 then o else entryAt m root va' := by
  rw [entryAt,h.lookup _ _ (vaPath_length va')]
  by_cases hp : va' / 4096 = va / 4096
  · rw [if_pos ((path_eq_iff hc hc').mpr hp),if_pos hp]
  · rw [if_neg (fun hq => hp ((path_eq_iff hc hc').mp hq)),if_neg hp]
    rfl

end DuckOs.PageTableOperations
