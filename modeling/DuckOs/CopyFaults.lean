import DuckOs.TableFamilies

namespace DuckOs.CopyFaults
open ExecutionRules AddressModel PermissionFlags KernelMachine PageTableModel PageModel Function
open PageTableEntries PageTableTree PageTableOperations FrameOwnership VirtMemoryModel
open SegmentViews AreaUnmap MemorySetModel TableFamilies
open OrderedMaps

variable {page : Page} {key kroot va w : ℕ} {vma : VirtMemoryAddr} {m₀ m : Machine}
  {rest : List PageTable} {H ext : ℕ → ℕ}

def copyFlags (flags : PTEFlags) : PTEFlags := remove (flags ||| PTEFlags.W) PTEFlags.COW

def shareFlags (flags : PTEFlags) : PTEFlags := remove (flags ||| PTEFlags.COW) PTEFlags.W

def isWritable (pte : ℕ) : Bool := contains (PageTableEntry.flags pte) PTEFlags.W

def isShared (pte : ℕ) : Bool := contains (PageTableEntry.flags pte) PTEFlags.COW

theorem ppn_mappedWord {p : ℕ} (hp : InRam p) (flags : PTEFlags) :
    PageTableEntry.ppn (mappedWord p flags) = p := by
  unfold InRam at hp
  exact ppn_new (by omega) _

theorem copied_unshared (p : ℕ) (flags : PTEFlags) :
    isShared (mappedWord p (copyFlags flags)) = false := by
  unfold isShared mappedWord
  rw [flags_new]
  revert flags
  decide

theorem shared_word (p : ℕ) (flags : PTEFlags) :
    isShared (mappedWord p (shareFlags flags)) = true ∧
      isWritable (mappedWord p (shareFlags flags)) = false := by
  unfold isShared isWritable mappedWord
  rw [flags_new]
  revert flags
  decide

section Handler

variable {pt : PageTable} {pma : PhysMemoryAddr} {cow : BTreeMap Page} {shared : Page}

structure Copies (m₀ : Machine) (kroot va w : ℕ) (pt pt' : PageTable) (rest : List PageTable)
    (page : Page) (held ext : ℕ → ℕ) (m m' : Machine) : Prop where
  fresh : page.ppn ∈ m.frameAllocator.free
  inRam : InRam page.ppn
  root : rootFrame pt' = rootFrame pt
  family : Family m₀ kroot (pt' :: rest) held ext m'
  pte : pteAt m' (rootFrame pt) = update (pteAt m (rootFrame pt)) (va / 4096)
    (some (mappedWord page.ppn (copyFlags (PageTableEntry.flags w))))
  others : ∀ t ∈ rest, pteAt m' (rootFrame t) = pteAt m (rootFrame t)
  bytes : m'.ram page.ppn = m.ram (PageTableEntry.ppn w)
  kept : ∀ g, DataFrame m₀ kroot (pt :: rest) m g → m'.ram g = m.ram g

theorem cowHandler_holds
    (f : Family m₀ kroot (pt :: rest)
      (fun p => H p + (pagesHeld pma.pageManager p + pagesHeld cow p)) ext m)
    (hva : va ≤ userUpperLimit) (hw : pteAt m (rootFrame pt) (va / 4096) = some w)
    (hcow : cow[va / 4096]? = some shared) (hppn : shared.ppn = PageTableEntry.ppn w) :
    Holds (cowHandler pma va cow pt) m
      (fun r m' => ∃ page,
        r.1 = { pma with pageManager := pma.pageManager.insert (va / 4096) page } ∧
        r.2.1 = cow.erase (va / 4096) ∧
        Copies m₀ kroot va w pt r.2.2 rest page
          (fun p => H p + (pagesHeld r.1.pageManager p + pagesHeld r.2.1 p)) ext m m')
      (fun e _ => e = .outOfFrames) := by
  have hv := userPage_of_le hva
  obtain ⟨slot,hslot,rfl⟩ := slotAt_user hva hw
  have hfind := f.translate List.mem_cons_self hva
  rw [hslot] at hfind
  have hvpn : (virtToVpn va : Kernel ℕ) m = .ok (va / 4096) m := by
    rw [virtToVpn_eq,checkUserVa_of_le hva,if_pos rfl]
  have herase := fun p => total_erase (fun page => single page p) cow (va / 4096)
  have hheld : 0 < H shared.ppn + (pagesHeld pma.pageManager shared.ppn +
      pagesHeld cow shared.ppn) := by
    have hle := weightAt_le_total (fun page => single page shared.ppn) cow (va / 4096)
    rw [weightAt_some hcow,single_self] at hle
    unfold pagesHeld
    omega
  refine holds_bind_ok hfind (holds_bind_ok rfl (holds_bind_ok (readPte_eq slot m) ?_))
  refine holds_bind_ok hvpn ?_
  rw [hcow]
  refine holds_bind_ok rfl ((f.copy List.mem_cons_self hheld shared.permission).bind ?_)
  intro page m₁ copied
  refine (copied.family.unmap hv).weaken.bind ?_
  intro _ m₂ cleared
  have hempty : pteAt m₂ (rootFrame pt) (va / 4096) = none := by
    rw [cleared.pte,update_self]
  refine ((cleared.family.mapOne hv page.ppn
    (copyFlags (PageTableEntry.flags (pteWord m slot.frame slot.index)))).onError ?_).bind ?_
  · rintro e - (h | h)
    · exact h
    · exact absurd hempty h
  rintro pt' m₃ ⟨-,mapped⟩
  have hloose := (mapped.data _ (cleared.data _ copied.loose).1).1
  refine (mapped.family.activate List.mem_cons_self).weaken.bind ?_
  rintro - m₄ ⟨f₄,same₄,hstrong,hfree⟩
  have loose : DataFrame m₀ kroot (pt' :: rest) m₄ page.ppn :=
    ⟨hfree ▸ hloose.used,hloose.noTable,hloose.inRam⟩
  have unheld : m₄.strong page.ppn = 0 := by
    rw [hstrong,mapped.strong,cleared.strong]
    exact copied.unheld
  refine (f₄.adopt List.mem_cons_self loose unheld).weaken.bind ?_
  rintro r m₅ ⟨hr,f₅,same₅⟩
  rw [hr]
  have f₅' : Family m₀ kroot (pt' :: rest) (fun p => (H p + pagesHeld cow p) +
      (pagesHeld pma.pageManager p + single page p)) ext m₅ :=
    f₅.held_congr fun p => by omega
  refine (f₅'.push List.mem_cons_self).weaken.bind ?_
  rintro _ m₆ ⟨rfl,f₆,same₆⟩
  have f₆' : Family m₀ kroot (pt' :: rest)
      (fun p => (H p + (pagesHeld (pma.pageManager.insert (va / 4096) page) p +
        pagesHeld (cow.erase (va / 4096)) p)) + single shared p) ext m₆ := by
    refine f₆.held_congr fun p => ?_
    have he := herase p
    rw [weightAt_some hcow] at he
    unfold pagesHeld
    omega
  refine (f₆'.drop List.mem_cons_self).weaken.bind ?_
  rintro - m₇ ⟨f₇,same₇⟩
  have same := ((same₄.trans same₅).trans same₆).trans same₇
  refine holds_pure ⟨page,rfl,rfl,copied.fresh,loose.inRam,mapped.root,f₇,?_,?_,?_,?_⟩
  · rw [← mapped.root,same.pte _ List.mem_cons_self,mapped.root,mapped.pte,cleared.pte,
      copied.pte _ List.mem_cons_self,update_idem]
  · intro t ht
    rw [same.pte t (List.mem_cons_of_mem _ ht),mapped.others t ht,cleared.others t ht,
      copied.pte t (List.mem_cons_of_mem _ ht)]
  · rw [same.ram,(mapped.data _ (cleared.data _ copied.loose).1).2,
      (cleared.data _ copied.loose).2,copied.bytes,hppn]
  · intro g hg
    have hne : g ≠ page.ppn := by
      rintro rfl
      exact hg.used copied.fresh
    have hg₁ := copied.data g hg
    rw [same.ram,(mapped.data _ (cleared.data _ hg₁).1).2,(cleared.data _ hg₁).2,
      copied.others g hne]

end Handler

section Spaces

variable {m' : Machine} {v : ℕ} {vm vm' : MemorySet}

def spaceHeld (vm : MemorySet) (p : ℕ) : ℕ :=
  areasHeld vm.areas p + pagesHeld vm.cowManager.pageManager p

def HandleAt (vm : MemorySet) (v p : ℕ) : Prop :=
  (∃ page : Page, vm.cowManager.pageManager[v]? = some page ∧ page.ppn = p) ∨
    ∃ (key : ℕ) (vma : VirtMemoryAddr) (page : Page), vm.areas[key]? = some vma ∧
      vma.pma.pageManager[v]? = some page ∧ page.ppn = p

theorem pagesHeld_pos {pages : BTreeMap Page} (h : pages[v]? = some page) :
    0 < pagesHeld pages page.ppn :=
  total_pos_iff.mpr ⟨v,page,h,by rw [single_self]; exact Nat.one_pos⟩

theorem areasHeld_pos {areas : VmaRange}
    (hk : areas[key]? = some vma) (h : vma.pma.pageManager[v]? = some page) :
    0 < areasHeld areas page.ppn :=
  total_pos_iff.mpr ⟨key,vma,hk,pagesHeld_pos h⟩

theorem HandleAt.held {p : ℕ} (h : HandleAt vm v p) : 0 < spaceHeld vm p := by
  unfold spaceHeld
  rcases h with ⟨page,hpage,rfl⟩ | ⟨key,vma,page,hk,hpage,rfl⟩
  · have := pagesHeld_pos hpage
    omega
  · have := areasHeld_pos hk hpage
    omega

/-- What every space keeps: a handle for each mapped page, and each shared page in its table of
shared pages. -/
structure Keeps (m : Machine) (vm : MemorySet) : Prop where
  backed : ∀ v w, UserPage v → pteAt m (rootFrame vm.pt) v = some w →
    HandleAt vm v (PageTableEntry.ppn w)
  shared : ∀ v w, UserPage v → pteAt m (rootFrame vm.pt) v = some w → isShared w = true →
    ∃ page : Page, vm.cowManager.pageManager[v]? = some page ∧ page.ppn = PageTableEntry.ppn w
  keys : ∀ (v : ℕ) (page : Page), vm.cowManager.pageManager[v]? = some page → UserPage (v + 1)

theorem Keeps.of_pte (k : Keeps m vm)
    (h : pteAt m' (rootFrame vm.pt) = pteAt m (rootFrame vm.pt)) : Keeps m' vm := by
  refine ⟨fun v w hv hw => k.backed v w hv ?_,fun v w hv hw => k.shared v w hv ?_,k.keys⟩
  · rwa [h] at hw
  · rwa [h] at hw

theorem isInCowLoop_eq : ∀ (pages : List (ℕ × Page)), (∀ e ∈ pages, UserPage (e.1 + 1)) →
    CowManager.isInCowLoop va pages m = .ok (pages.any fun e => decide (e.1 = va / 4096)) m
  | [], _ => rfl
  | (v, page) :: pages, h => by
    have hlast : UserPage (v + 1) := h (v, page) List.mem_cons_self
    unfold CowManager.isInCowLoop
    rw [bind_ok hlast.of_succ.toVirt,bind_ok hlast.toVirt,List.any_cons]
    by_cases he : v = va / 4096
    · rw [if_pos (by omega),decide_eq_true he,Bool.true_or]
      rfl
    · rw [if_neg (by omega),decide_eq_false he,Bool.false_or]
      exact isInCowLoop_eq pages fun e he => h e (List.mem_cons_of_mem _ he)

theorem Keeps.isInCow (k : Keeps m vm)
    (h : vm.cowManager.pageManager[va / 4096]? = some page) :
    vm.cowManager.isInCow va m = .ok true m := by
  have hmem := mem_toList.mpr h
  unfold CowManager.isInCow
  rw [isInCowLoop_eq _ fun e he => k.keys e.1 e.2 (mem_toList.mp he)]
  rw [List.any_eq_true.mpr ⟨_,hmem,by simp⟩]

structure Faulted (m₀ : Machine) (kroot va w : ℕ) (vm vm' : MemorySet) (rest : List PageTable)
    (key : ℕ) (vma : VirtMemoryAddr) (page : Page) (H ext : ℕ → ℕ) (m m' : Machine) : Prop where
  areas : vm'.areas = vm.areas.insert key
    { vma with pma := { vma.pma with
        pageManager := vma.pma.pageManager.insert (va / 4096) page } }
  cow : vm'.cowManager.pageManager = vm.cowManager.pageManager.erase (va / 4096)
  copies : Copies m₀ kroot va w vm.pt vm'.pt rest page (fun p => H p + spaceHeld vm' p) ext m m'

theorem findVmByVaddr_some
    (h : MemorySet.findVmByVaddr vm va = some (key, vma)) : vm.areas[key]? = some vma :=
  mem_toList.mp (List.mem_of_find?_eq_some h)

theorem handlePageFault_copies
    (f : Family m₀ kroot (vm.pt :: rest) (fun p => H p + spaceHeld vm p) ext m)
    (k : Keeps m vm) (hva : va ≤ userUpperLimit)
    (hw : pteAt m (rootFrame vm.pt) (va / 4096) = some w) (hshared : isShared w = true)
    (found : MemorySet.findVmByVaddr vm va = some (key, vma)) :
    Holds (MemorySet.handlePageFault vm va) m
      (fun r m' => ∃ page, Faulted m₀ kroot va w vm r.1 rest key vma page H ext m m')
      (fun e _ => e = .outOfFrames) := by
  have hk := findVmByVaddr_some found
  obtain ⟨shared,hcow,hppn⟩ := k.shared _ _ (userPage_of_le hva) hw hshared
  have herase := fun p => total_erase (fun vma => vmaHeld vma p) vm.areas key
  have f' : Family m₀ kroot (vm.pt :: rest)
      (fun p => (H p + areasHeld (vm.areas.erase key) p) +
        (pagesHeld vma.pma.pageManager p + pagesHeld vm.cowManager.pageManager p)) ext m := by
    refine f.held_congr fun p => ?_
    have he := herase p
    rw [weightAt_some hk] at he
    unfold spaceHeld areasHeld
    unfold vmaHeld at he ⊢
    omega
  unfold MemorySet.handlePageFault
  rw [found]
  refine holds_bind_ok (k.isInCow hcow) ?_
  refine (cowHandler_holds f' hva hw hcow hppn).bind ?_
  rintro ⟨pma,cow,pt⟩ m' ⟨page,hpma,hcow',copies⟩
  refine holds_pure ⟨page,by rw [hpma],hcow',copies.fresh,copies.inRam,copies.root,?_,
    copies.pte,copies.others,copies.bytes,copies.kept⟩
  refine copies.family.held_congr fun p => ?_
  have hi := areasHeld_replace hk { vma with pma := pma } p
  have he := herase p
  rw [weightAt_some hk] at he
  unfold spaceHeld
  unfold areasHeld at hi ⊢
  unfold vmaHeld at hi he ⊢
  dsimp only at hi ⊢
  omega

theorem Faulted.keeps
    (done : Faulted m₀ kroot va w vm vm' rest key vma page H ext m m')
    (hk : vm.areas[key]? = some vma) (k : Keeps m vm) : Keeps m' vm' := by
  have hcow : ∀ u, u ≠ va / 4096 →
      vm'.cowManager.pageManager[u]? = vm.cowManager.pageManager[u]? := by
    intro u hu
    rw [done.cow,getElem?_erase,if_neg hu]
  have hself : ∀ (u : ℕ) (copy : Page),
      (vma.pma.pageManager.insert (va / 4096) page)[u]? = some copy →
      HandleAt vm' u copy.ppn := by
    intro u copy hcopy
    have hseg := getElem?_insert vm.areas key key { vma with pma := { vma.pma with
      pageManager := vma.pma.pageManager.insert (va / 4096) page } }
    rw [if_pos rfl,← done.areas] at hseg
    exact .inr ⟨key,_,copy,hseg,hcopy,rfl⟩
  have hold : ∀ u p, u ≠ va / 4096 → HandleAt vm u p → HandleAt vm' u p := by
    rintro u p hu (⟨shared,hs,rfl⟩ | ⟨key',vma',own,hk',hown,rfl⟩)
    · exact .inl ⟨shared,(hcow u hu).trans hs,rfl⟩
    · by_cases he : key' = key
      · rw [he,hk,Option.some.injEq] at hk'
        refine hself u own ?_
        rw [getElem?_insert,if_neg hu,hk']
        exact hown
      · refine .inr ⟨key',vma',own,?_,hown,rfl⟩
        rw [done.areas,getElem?_insert,if_neg he]
        exact hk'
  have hpte : ∀ u, pteAt m' (rootFrame vm'.pt) u = if u = va / 4096 then
      some (mappedWord page.ppn (copyFlags (PageTableEntry.flags w)))
      else pteAt m (rootFrame vm.pt) u := by
    intro u
    rw [done.copies.root,done.copies.pte,update_apply]
  refine ⟨fun u word hu hword => ?_,fun u word hu hword hs => ?_,fun u shared hs => ?_⟩
  · rw [hpte] at hword
    split_ifs at hword with he
    · cases hword
      rw [ppn_mappedWord done.copies.inRam,he]
      refine hself _ page ?_
      rw [getElem?_insert,if_pos rfl]
    · exact hold u _ he (k.backed u word hu hword)
  · rw [hpte] at hword
    split_ifs at hword with he
    · cases hword
      rw [copied_unshared] at hs
      cases hs
    · rw [hcow u he]
      exact k.shared u word hu hword hs
  · rw [done.cow,getElem?_erase] at hs
    split at hs
    · cases hs
    · exact k.keys u shared hs

end Spaces

end DuckOs.CopyFaults
