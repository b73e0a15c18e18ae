import DuckOs.BootMachine

namespace DuckOs.PageTableSharing
open ExecutionRules LittleEndianWords AddressModel PermissionFlags KernelMachine PageTableModel
open PageTableEntries RadixTree PageTableTree PageTableWalks PageTableOperations
open PageTableRefinement BootMachine

variable {p : List ℕ} {g x va root kroot : ℕ} {rest : FrameAllocator} {m m₀ m' : Machine}
  {pt kernel : PageTable}

def KernelSlot (i : ℕ) : Prop := i = kernelPtePos ∨ i = kernelMmioPtePos

instance (i : ℕ) : Decidable (KernelSlot i) := inferInstanceAs (Decidable (_ ∨ _))

/-- A frame that holds a table below `root`, the root included. -/
def TableFrame (m : Machine) (root f : ℕ) : Prop :=
  ∃ p : List ℕ, p.length < 3 ∧ reachIn m root p = some f

section Unwritten

theorem reachIn_unwritten (same : ∀ g, TableFrame m root g → m'.ram g = m.ram g)
    (hp : p.length < 4) :
    reachIn m' root p = reachIn m root p := by
  apply reach_congr
  intro q j r f hq hf
  apply pteWord_congr
  apply same
  refine ⟨q,?_,hf⟩
  rw [hq,List.length_append,List.length_cons] at hp
  omega

theorem lookupIn_unwritten (same : ∀ g, TableFrame m root g → m'.ram g = m.ram g)
    (hp : p.length < 3) (j : ℕ) : lookupIn m' root p j = lookupIn m root p j := by
  have hr := reachIn_unwritten same (Nat.lt_succ_of_lt hp)
  cases hf : reachIn m root p with
  | none =>
    rw [lookupIn,lookup_none (hr.trans hf),lookupIn,lookup_none hf]
  | some f =>
    have hw : tableHeap m' f j = tableHeap m f j := pteWord_congr (same f ⟨p,hp,hf⟩) j
    rw [lookupIn,lookup_some (hr.trans hf),lookupIn,lookup_some hf,hw]

end Unwritten

section Layout

structure UserTable (m₀ m : Machine) (kroot : ℕ) (pt : PageTable) (root : ℕ) : Prop where
  rootPaddr : pt.rootPaddr = root * 4096
  tree : Tree m root fun g => g ∈ pt.frames ∨ TableFrame m₀ kroot g
  apart : ∀ g ∈ pt.frames, ¬ TableFrame m₀ kroot g
  rootOwn : root ∈ pt.frames
  own : ∀ i r g, ¬ KernelSlot i → r.length < 2 → reachIn m root (i :: r) = some g → g ∈ pt.frames
  shared : ∀ i r j, KernelSlot i → r.length = 1 →
    lookupIn m root (i :: r) j = lookupIn m₀ kroot (i :: r) j
  rows : ∀ g, TableFrame m₀ kroot g → m.ram g = m₀.ram g

variable {new : List ℕ}

theorem user_slot (h : va ≤ userUpperLimit) : ¬ KernelSlot (pteVpn va).1 := by
  unfold userUpperLimit at h
  rw [pteVpn_eq]
  unfold KernelSlot kernelPtePos kernelMmioPtePos
  omega

section

variable (u : UserTable m₀ m kroot pt root)
include u

theorem UserTable.onPath (h : va ≤ userUpperLimit)
    (hg : OnPath m root (vaPath va) g) : g ∈ pt.frames := by
  obtain ⟨a,ha,hr⟩ := hg
  cases a with
  | nil =>
    cases hr
    exact u.rootOwn
  | cons i r =>
    have hlen := ha.length_le
    rw [vaPath_length,List.length_cons] at hlen
    obtain ⟨t,ht⟩ := ha
    have hi : i = (pteVpn va).1 := (List.cons.inj ht).1
    exact u.own i r g (hi ▸ user_slot h) (by omega) hr

theorem UserTable.extend (h : va ≤ userUpperLimit) (ext : Extended m m' root (vaPath va) new)
    (others : ∀ q j, q.length = 2 → q ≠ vaPath va → lookupIn m' root q j = lookupIn m root q j) :
    UserTable m₀ m' kroot { pt with frames := pt.frames ++ new } root := by
  have grown := ext.tree u.tree
  have fresh : ∀ g ∈ new, ¬ TableFrame m₀ kroot g := fun g hg hk =>
    u.tree.notFree g (.inr hk) (ext.fresh hg).1
  refine ⟨u.rootPaddr,?_,?_,List.mem_append_left _ u.rootOwn,?_,?_,?_⟩
  · refine grown.weaken ?_ ?_ ?_
    · rintro g ((old | kernel) | made)
      · exact .inl (List.mem_append_left _ old)
      · exact .inr kernel
      · exact .inl (List.mem_append_right _ made)
    · rintro g (hg | kernel)
      · exact grown.inRam g ((List.mem_append.mp hg).imp .inl id)
      · exact grown.inRam g (.inl (.inr kernel))
    · rintro g (hg | kernel)
      · exact grown.notFree g ((List.mem_append.mp hg).imp .inl id)
      · exact grown.notFree g (.inl (.inr kernel))
  · intro g hg
    rcases List.mem_append.mp hg with old | made
    · exact u.apart g old
    · exact fresh g made
  · intro i r g hi hr hreach
    rcases ext.reached (i :: r) g (by rw [List.length_cons]; omega) hreach with old | made
    · exact List.mem_append_left _ (u.own i r g hi hr old)
    · exact List.mem_append_right _ made.1
  · intro i r j hi hr
    have hne : i :: r ≠ vaPath va := by
      intro hc
      exact user_slot h ((List.cons.inj hc).1 ▸ hi)
    rw [others (i :: r) j (by rw [List.length_cons]; omega) hne]
    exact u.shared i r j hi hr
  · intro g hg
    rw [ext.ram g (fun hn => fresh g hn hg) fun hp => u.apart g (u.onPath h hp) hg]
    exact u.rows g hg

theorem UserTable.edited {i : ℕ} {o : Option ℕ}
    (h : va ≤ userUpperLimit) (ed : Edited m m' root (vaPath va) i new o) :
    UserTable m₀ m' kroot { pt with frames := pt.frames ++ new } root := by
  apply u.extend h ed.toExtended
  intro q j hq hne
  rw [ed.lookup q j hq,if_neg fun hc => hne hc.1]

theorem UserTable.created (h : va ≤ userUpperLimit) (made : Created m m' root (vaPath va) new) :
    UserTable m₀ m' kroot { pt with frames := pt.frames ++ new } root :=
  u.extend h made.toExtended fun q j hq _ => made.lookup q j hq

end

end Layout

/-- What is left when the kernel stops inside an operation: the frames taken so far are
in the tree, though no table handle was returned. -/
def Stopped (m₀ : Machine) (kroot root : ℕ) : Panic → Machine → Prop :=
  fun _ m' => ∃ pt', UserTable m₀ m' kroot pt' root

def TableOp.address : TableOp → ℕ
  | .map vpn _ _ => vpnShift vpn
  | .unmap vpn => vpnShift vpn
  | .modify vpn _ => vpnShift vpn

theorem user_step (u : UserTable m₀ m kroot pt root) {op : TableOp}
    (h : TableOp.address op ≤ userUpperLimit) :
    Holds (op.run pt) m (fun pt' m' => UserTable m₀ m' kroot pt' root)
      (Stopped m₀ kroot root) := by
  cases op with
  | map vpn ppn flags =>
    refine (mapOne_holds u.tree u.rootPaddr vpn ppn flags).mono ?_ ?_
    · rintro pt' m' ⟨-,-,new,rfl,-,ed⟩
      exact u.edited h ed
    · rintro e m' (⟨-,-,rfl⟩ | ⟨-,-,new,made⟩)
      · exact ⟨pt,u⟩
      · exact ⟨_,u.created h made⟩
  | unmap vpn =>
    refine Holds.bind ((unmap_holds u.tree u.rootPaddr vpn).onError ?_) ?_
    · rintro e m' ⟨-,-,rfl⟩
      exact ⟨pt,u⟩
    · rintro - m' ⟨-,ed⟩
      have kept := u.edited h ed
      rw [List.append_nil] at kept
      exact holds_pure kept
  | modify vpn flags =>
    refine Holds.bind ((modifyFlags_holds u.tree u.rootPaddr vpn flags).onError ?_) ?_
    · rintro e m' ⟨rfl,-⟩
      exact ⟨pt,u⟩
    · rintro - m' ⟨-,w,-,-,ed⟩
      have kept := u.edited h ed
      rw [List.append_nil] at kept
      exact holds_pure kept

theorem user_run (ops : List TableOp) : ∀ {m : Machine} {pt : PageTable},
    UserTable m₀ m kroot pt root → (∀ op ∈ ops, TableOp.address op ≤ userUpperLimit) →
    Holds (ops.foldlM TableOp.run pt) m (fun pt' m' => UserTable m₀ m' kroot pt' root)
      (Stopped m₀ kroot root) := by
  induction ops with
  | nil =>
    intro m pt u _
    exact holds_pure u
  | cons op ops ih =>
    intro m pt u h
    refine Holds.bind (user_step u (h op List.mem_cons_self)) ?_
    intro pt' m' u'
    exact ih u' fun op' hop => h op' (List.mem_cons_of_mem _ hop)

def copySlots (m : Machine) (kroot x : ℕ) (rest : FrameAllocator) : Machine :=
  putPte (putPte (takeFrame m x rest) ⟨x, kernelPtePos⟩ (pteWord m kroot kernelPtePos))
    ⟨x, kernelMmioPtePos⟩ (pteWord m kroot kernelMmioPtePos)

theorem copySlots_ram (rest : FrameAllocator) (h : g ≠ x) :
    (copySlots m kroot x rest).ram g = m.ram g := by
  rw [copySlots,putPte_ram_ne _ _ _ h,putPte_ram_ne _ _ _ h,takeFrame_ram_ne _ _ h]

theorem copySlots_word (x i : ℕ) (rest : FrameAllocator) :
    pteWord (copySlots m kroot x rest) x i = if KernelSlot i then pteWord m kroot i else 0 := by
  unfold copySlots
  by_cases hm : i = kernelMmioPtePos
  · subst hm
    exact pteWord_putPte_same _ ⟨x,kernelMmioPtePos⟩ (pteWord_lt _ _ _)
  · rw [pteWord_putPte_ne _ ⟨x,kernelMmioPtePos⟩ _ fun hc => hm hc.2]
    by_cases hk : i = kernelPtePos
    · subst hk
      exact pteWord_putPte_same _ ⟨x,kernelPtePos⟩ (pteWord_lt _ _ _)
    · rw [pteWord_putPte_ne _ ⟨x,kernelPtePos⟩ _ fun hc => hk hc.2,
        if_neg fun hc => hc.elim hk hm,pteWord,takeFrame_ram_self,readWord_zero]

theorem copySlots_reach (hx : ¬ TableFrame m kroot x) (i : ℕ) {r : List ℕ} (hr : r.length < 3) :
    reachIn (copySlots m kroot x rest) x (i :: r) =
      if KernelSlot i then reachIn m kroot (i :: r) else none := by
  have unfoldUser : reachIn (copySlots m kroot x rest) x (i :: r) =
      if PageTableEntry.isValid (pteWord (copySlots m kroot x rest) x i) then
        reachIn (copySlots m kroot x rest)
          (PageTableEntry.ppn (pteWord (copySlots m kroot x rest) x i)) r else none := rfl
  have unfoldKernel : reachIn m kroot (i :: r) =
      if PageTableEntry.isValid (pteWord m kroot i) then
        reachIn m (PageTableEntry.ppn (pteWord m kroot i)) r else none := rfl
  rw [unfoldUser,copySlots_word]
  by_cases hi : KernelSlot i
  · rw [if_pos hi,if_pos hi,unfoldKernel]
    by_cases hv : PageTableEntry.isValid (pteWord m kroot i) = true
    · rw [if_pos hv,if_pos hv]
      apply reach_congr
      intro q j s f hq hf
      apply pteWord_congr
      apply copySlots_ram
      rintro rfl
      refine hx ⟨i :: q,?_,?_⟩
      · rw [hq,List.length_append,List.length_cons] at hr
        rw [List.length_cons]
        omega
      · change (if PageTableEntry.isValid (pteWord m kroot i) then _ else _) = _
        rw [hv]
        exact hf
    · rw [if_neg hv,if_neg hv]
  · rw [if_neg hi,if_neg hi,isValid_zero]
    rfl

theorem copySlots_entry (hx : ¬ TableFrame m kroot x) (h : va ≤ userUpperLimit) :
    entryAt (copySlots m kroot x rest) x va = none := by
  refine lookup_none ?_ _
  have hreach : reachIn (copySlots m kroot x rest) x (vaPath va) = _ := copySlots_reach hx
    (pteVpn va).1 (r := [(pteVpn va).2.1])
    (by rw [List.length_singleton]; omega)
  rw [if_neg (user_slot h)] at hreach
  exact hreach

theorem copySlots_userTable (kt : Tree m kroot (TableFrame m kroot))
    (ha : m.frameAllocator.alloc = some (x, rest)) :
    UserTable m (copySlots m kroot x rest) kroot ⟨x * 4096, [x]⟩ x := by
  have hmem := alloc_mem ha
  have hx : ¬ TableFrame m kroot x := fun hk => kt.notFree x hk hmem
  have sub := alloc_sub ha
  have below : ∀ i r g, r.length < 2 →
      reachIn (copySlots m kroot x rest) x (i :: r) = some g →
      KernelSlot i ∧ reachIn m kroot (i :: r) = some g := by
    intro i r g hr hg
    rw [copySlots_reach hx i (by omega)] at hg
    by_cases hi : KernelSlot i
    · rw [if_pos hi] at hg
      exact ⟨hi,hg⟩
    · rw [if_neg hi] at hg
      cases hg
  have inner : ∀ i r g, r.length < 2 →
      reachIn (copySlots m kroot x rest) x (i :: r) = some g → g ≠ x := by
    rintro i r g hr hg rfl
    exact hx ⟨i :: r,by rw [List.length_cons]; omega,(below i r g hr hg).2⟩
  refine ⟨rfl,⟨?_,?_,?_,?_,?_⟩,?_,List.mem_singleton_self x,?_,?_,?_⟩
  · intro p q g hp hq hpg hqg
    cases p with
    | nil =>
      cases hpg
      cases q with
      | nil => rfl
      | cons i r => exact (inner i r _ (by rw [List.length_cons] at hq; omega) hqg rfl).elim
    | cons i r =>
      rw [List.length_cons] at hp
      cases q with
      | nil =>
        cases hqg
        exact (inner i r _ (by omega) hpg rfl).elim
      | cons j s =>
        rw [List.length_cons] at hq
        exact kt.separated (i :: r) (j :: s) g (by rw [List.length_cons]; omega)
          (by rw [List.length_cons]; omega) (below i r g (by omega) hpg).2
          (below j s g (by omega) hqg).2
  · intro p g hp hg
    cases p with
    | nil =>
      cases hg
      exact .inl (List.mem_singleton_self x)
    | cons i r =>
      rw [List.length_cons] at hp
      exact .inr ⟨i :: r,by rw [List.length_cons]; omega,(below i r g (by omega) hg).2⟩
  · rintro g (hg | hk)
    · rw [List.mem_singleton.mp hg]
      exact kt.freeInRam x hmem
    · exact kt.inRam g hk
  · rintro g (hg | hk) hf
    · rw [List.mem_singleton.mp hg] at hf
      exact alloc_not_mem ha hf
    · exact kt.notFree g hk (sub g hf)
  · intro g hg
    exact kt.freeInRam g (sub g hg)
  · intro g hg
    rw [List.mem_singleton.mp hg]
    exact hx
  · intro i r g hi hr hg
    exact (hi (below i r g hr hg).1).elim
  · intro i r j hi hr
    have hreach : reachIn (copySlots m kroot x rest) x (i :: r) = reachIn m kroot (i :: r) := by
      rw [copySlots_reach hx i (by omega),if_pos hi]
    cases hf : reachIn m kroot (i :: r) with
    | none =>
      rw [lookupIn,lookup_none (hreach.trans hf),lookupIn,lookup_none hf]
    | some f =>
      have hne : f ≠ x := by
        rintro rfl
        exact hx ⟨i :: r,by rw [List.length_cons]; omega,hf⟩
      have hw : tableHeap (copySlots m kroot x rest) f j = tableHeap m f j :=
        pteWord_congr (copySlots_ram rest hne) j
      rw [lookupIn,lookup_some (hreach.trans hf),lookupIn,lookup_some hf,hw]
  · intro g hk
    apply copySlots_ram
    rintro rfl
    exact hx hk

theorem newUser_eq (hk : m.kernelSpace = some kernel) (hr : kernel.rootPaddr = kroot * 4096)
    (kt : Tree m kroot (TableFrame m kroot)) (ha : m.frameAllocator.alloc = some (x, rest)) :
    PageTable.newUser m = .ok ⟨x * 4096, [x]⟩ (copySlots m kroot x rest) := by
  have hmem := alloc_mem ha
  have hx := kt.freeInRam x hmem
  have hne : kroot ≠ x := by
    rintro rfl
    exact kt.notFree _ kt.root_mem hmem
  have hget : (get : Kernel Machine) (takeFrame m x rest) =
      .ok (takeFrame m x rest) (takeFrame m x rest) := rfl
  have hkernel : unwrap Panic.unwrapNone (takeFrame m x rest).kernelSpace (takeFrame m x rest) =
      .ok kernel (takeFrame m x rest) := by
    change unwrap Panic.unwrapNone m.kernelSpace _ = _
    rw [hk]
    rfl
  unfold PageTable.newUser
  rw [bind_ok (allocFrameUnwrap_some ha hx),bind_ok hget,bind_ok hkernel,ppnToPhys_frame hx,
    bind_ok (pteArray_frame hx _),hr,bind_ok (pteArray_frame (kt.inRam _ kt.root_mem) _),
    bind_ok (readPte_eq _ _),bind_ok (writePte_eq _ _ _),bind_ok (readPte_eq _ _),
    bind_ok (writePte_eq _ _ _)]
  have hcode : pteWord (takeFrame m x rest) kroot kernelPtePos = pteWord m kroot kernelPtePos :=
    pteWord_congr (takeFrame_ram_ne m rest hne) _
  have hmmio : pteWord (putPte (takeFrame m x rest) ⟨x,kernelPtePos⟩
      (pteWord m kroot kernelPtePos)) kroot kernelMmioPtePos =
        pteWord m kroot kernelMmioPtePos := by
    apply pteWord_congr
    rw [putPte_ram_ne _ _ _ hne,takeFrame_ram_ne _ _ hne]
  simp only [hcode,hmmio]
  rfl

def entryVia (pt : PageTable) (va : ℕ) : Kernel (Option ℕ) := do
  match ← PageTable.translateVaToPte pt va with
  | some slot => some <$> readPte slot
  | none => pure none

theorem entryVia_eq {S : ℕ → Prop} (t : Tree m root S) (hr : pt.rootPaddr = root * 4096)
    (hc : checkUserVa va = true) : entryVia pt va m = .ok (entryAt m root va) m := by
  have hfind := findPte_eq t hr va
  rw [hc,if_pos rfl] at hfind
  unfold entryVia PageTable.translateVaToPte
  rw [bind_ok hfind]
  cases hs : slotAt m root va with
  | none =>
    rw [slotAt_eq_none.mp hs]
    rfl
  | some s =>
    rw [(slotAt_eq_some hs).2.2.2]
    rfl

theorem kernel_slot (h : checkKernelVa va = true) : KernelSlot (pteVpn va).1 := by
  rw [checkKernelVa_iff] at h
  rw [pteVpn_eq]
  unfold KernelSlot kernelPtePos kernelMmioPtePos
  omega

theorem checkUserVa_of_kernel (h : checkKernelVa va = true) : checkUserVa va = true := by
  rw [checkKernelVa_iff] at h
  rw [checkUserVa_iff]
  omega

theorem UserTable.userEntry (u : UserTable m₀ m kroot pt root) (h : KernelSlot (pteVpn va).1) :
    entryAt m root va = entryAt m₀ kroot va :=
  u.shared _ _ _ h rfl

theorem UserTable.kernelEntry (u : UserTable m₀ m kroot pt root) (va : ℕ) :
    entryAt m kroot va = entryAt m₀ kroot va :=
  lookupIn_unwritten u.rows (by rw [vaPath_length]; omega) _

theorem UserTable.kernelTree (u : UserTable m₀ m kroot pt root)
    (kt : Tree m₀ kroot (TableFrame m₀ kroot)) : Tree m kroot (TableFrame m₀ kroot) := by
  have hreach : ∀ p : List ℕ, p.length < 3 → reachIn m kroot p = reachIn m₀ kroot p :=
    fun p hp => reachIn_unwritten u.rows (by omega)
  refine ⟨?_,?_,kt.inRam,fun g hg => u.tree.notFree g (.inr hg),u.tree.freeInRam⟩
  · intro p q g hp hq hpg hqg
    exact kt.separated p q g hp hq ((hreach p hp).symm.trans hpg) ((hreach q hq).symm.trans hqg)
  · intro p g hp hg
    exact ⟨p,hp,(hreach p hp).symm.trans hg⟩

/-- Kernel addresses keep the entries of `m₀` in both tables, and no kernel table frame was
written. -/
structure KernelIntact (m₀ m : Machine) (kernel : PageTable) (kroot root : ℕ) : Prop where
  walked : ∀ va, KernelSlot (pteVpn va).1 →
    entryAt m root va = entryAt m₀ kroot va ∧ entryAt m kroot va = entryAt m₀ kroot va
  translated : ∀ va, checkKernelVa va = true → ∀ user : PageTable, user.rootPaddr = root * 4096 →
    ∃ o, entryVia kernel va m₀ = .ok o m₀ ∧ entryVia user va m = .ok o m ∧
      entryVia kernel va m = .ok o m
  unwritten : ∀ g, TableFrame m₀ kroot g → m.ram g = m₀.ram g

theorem UserTable.intact (u : UserTable m₀ m kroot pt root)
    (kt : Tree m₀ kroot (TableFrame m₀ kroot)) (hr : kernel.rootPaddr = kroot * 4096) :
    KernelIntact m₀ m kernel kroot root := by
  refine ⟨fun va h => ⟨u.userEntry h,u.kernelEntry va⟩,?_,u.rows⟩
  intro va hk user huser
  have hc := checkUserVa_of_kernel hk
  refine ⟨entryAt m₀ kroot va,entryVia_eq kt hr hc,?_,?_⟩
  · rw [entryVia_eq u.tree huser hc,u.userEntry (kernel_slot hk)]
  · rw [entryVia_eq (u.kernelTree kt) hr hc,u.kernelEntry va]

/-- Whatever a user table is used for below the user limit, and wherever that stops. -/
theorem user_ops_leave_kernel_intact (m : Machine) (kernel : PageTable) (kroot : ℕ)
    (hk : m.kernelSpace = some kernel) (hr : kernel.rootPaddr = kroot * 4096)
    (kt : Tree m kroot (TableFrame m kroot)) (ops : List TableOp)
    (user : ∀ op ∈ ops, TableOp.address op ≤ userUpperLimit) :
    Holds (PageTable.newUser >>= fun pt => ops.foldlM TableOp.run pt) m
      (fun pt m' => ∃ root, pt.rootPaddr = root * 4096 ∧ KernelIntact m m' kernel kroot root)
      (fun e m' => (e = .outOfFrames ∧ m' = m ∧ m.frameAllocator.free = []) ∨
        ∃ root, m.frameAllocator.free.head? = some root ∧
          KernelIntact m m' kernel kroot root) := by
  cases ha : m.frameAllocator.alloc with
  | none =>
    apply holds_error (bind_error _)
    · exact .inl ⟨rfl,rfl,alloc_eq_none ha⟩
    · unfold PageTable.newUser
      exact bind_error (allocFrameUnwrap_none ha)
  | some xr =>
    obtain ⟨x,rest⟩ := xr
    have hhead : m.frameAllocator.free.head? = some x := by rw [alloc_eq_some ha]; rfl
    unfold Holds
    rw [bind_ok (newUser_eq hk hr kt ha)]
    refine (user_run ops (copySlots_userTable kt ha) user).mono ?_ ?_
    · intro pt m' u
      exact ⟨x,u.rootPaddr,u.intact kt hr⟩
    · rintro e m' ⟨pt',u⟩
      exact .inr ⟨x,hhead,u.intact kt hr⟩

theorem tableFrame_tree {f : PageMap} (r : Represents m pt root f) :
    Tree m root (TableFrame m root) := by
  have sub : ∀ g, TableFrame m root g → g ∈ pt.frames := fun g ⟨p,hp,hr⟩ => r.tree.members p g hp hr
  exact ⟨r.tree.separated,fun p g hp hr => ⟨p,hp,hr⟩,fun g hg => r.tree.inRam g (sub g hg),
    fun g hg => r.tree.notFree g (sub g hg),r.tree.freeInRam⟩

/-- Mapping, remapping with other flags and unmapping on both sides of a table boundary. -/
def userOps : List TableOp :=
  [.map 0x10 0x80600 PTEFlags.R, .modify 0x10 (PTEFlags.R ||| PTEFlags.W),
    .map 0xfffff 0x80601 PTEFlags.R, .unmap 0x10, .unmap 0x20]

theorem user_ops_leave_kernel_intact_boot : ∃ m, m = bootMachine 64 ∧ ∃ kernel kroot,
    m.kernelSpace = some kernel ∧ (∀ op ∈ userOps, TableOp.address op ≤ userUpperLimit) ∧
    Holds (PageTable.newUser >>= fun pt => userOps.foldlM TableOp.run pt) m
      (fun pt m' => ∃ root, pt.rootPaddr = root * 4096 ∧ KernelIntact m m' kernel kroot root)
      (fun e m' => (e = .outOfFrames ∧ m' = m ∧ m.frameAllocator.free = []) ∨
        ∃ root, m.frameAllocator.free.head? = some root ∧
          KernelIntact m m' kernel kroot root) := by
  obtain ⟨kernel,kroot,hk,r,-,-⟩ := bootMachine_table (n := 64) (by decide) (by decide)
  have user : ∀ op ∈ userOps, TableOp.address op ≤ userUpperLimit := by decide
  refine ⟨bootMachine 64,rfl,kernel,kroot,hk,user,?_⟩
  generalize bootMachine 64 = m at hk r ⊢
  exact user_ops_leave_kernel_intact m kernel kroot hk r.rootPaddr (tableFrame_tree r) userOps user

end DuckOs.PageTableSharing
