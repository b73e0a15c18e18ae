import DuckOs.PageTableOperations

namespace DuckOs.PageTableRefinement
open ExecutionRules LittleEndianWords AddressModel PermissionFlags KernelMachine PageTableModel
open PageTableEntries RadixTree PageTableTree PageTableWalks PageTableOperations
open OrderedMaps (BTreeMap)

variable {m : Machine} {pt : PageTable} {root vpn ppn : ℕ}

structure Mapping where
  ppn : ℕ
  flags : PTEFlags
  deriving DecidableEq

abbrev PageMap := BTreeMap Mapping

variable {f : PageMap}

inductive TableOp where
  | map (vpn ppn : ℕ) (flags : PTEFlags)
  | unmap (vpn : ℕ)
  | modify (vpn : ℕ) (flags : PTEFlags)

def pageOf (vpn : ℕ) : ℕ := vpnShift vpn / 4096

def TableOp.Legal (f : PageMap) : TableOp → Prop
  | .map vpn ppn _ => checkUserVa (vpnShift vpn) = true ∧ ppn < 2 ^ 44 ∧ f[pageOf vpn]? = none
  | .unmap vpn => f[pageOf vpn]? ≠ none
  | .modify vpn _ => f[pageOf vpn]? ≠ none

def Mapping.withAccess (e : Mapping) (flags : PTEFlags) : Mapping :=
  { e with flags := remove e.flags accessBits ||| (flags &&& accessBits) }

def TableOp.apply (f : PageMap) : TableOp → PageMap
  | .map vpn ppn flags =>
    f.insert (pageOf vpn) ⟨ppn, flags ||| PTEFlags.V ||| PTEFlags.A ||| PTEFlags.D⟩
  | .unmap vpn => f.erase (pageOf vpn)
  | .modify vpn flags => f.alter (pageOf vpn) fun o => o.map fun e => e.withAccess flags

def LegalRun : PageMap → List TableOp → Prop
  | _, [] => True
  | f, op :: ops => op.Legal f ∧ LegalRun (op.apply f) ops

instance (f : PageMap) : (op : TableOp) → Decidable (op.Legal f)
  | .map _ _ _ => inferInstanceAs (Decidable (_ ∧ _ ∧ _ = none))
  | .unmap _ => inferInstanceAs (Decidable (¬ _ = none))
  | .modify _ _ => inferInstanceAs (Decidable (¬ _ = none))

instance instDecidableLegalRun : (f : PageMap) → (ops : List TableOp) → Decidable (LegalRun f ops)
  | _, [] => isTrue trivial
  | f, op :: ops =>
    have := instDecidableLegalRun (op.apply f) ops
    inferInstanceAs (Decidable (op.Legal f ∧ LegalRun (op.apply f) ops))

def TableOp.run (pt : PageTable) : TableOp → Kernel PageTable
  | .map vpn ppn flags => PageTable.mapOne pt vpn ppn flags
  | .unmap vpn => do
    PageTable.unmap pt vpn
    pure pt
  | .modify vpn flags => do
    PageTable.modifyFlags pt vpn flags
    pure pt

def decodeEntry (w : ℕ) : Mapping := ⟨PageTableEntry.ppn w, PageTableEntry.flags w⟩

structure Represents (m : Machine) (pt : PageTable) (root : ℕ) (f : PageMap) : Prop where
  rootPaddr : pt.rootPaddr = root * 4096
  tree : Tree m root (· ∈ pt.frames)
  entries : ∀ va, checkUserVa va = true → (entryAt m root va).map decodeEntry = f[va / 4096]?
  accepted : ∀ k, f[k]? ≠ none → checkUserVa (k * 4096) = true
  bounded : ∀ (k : ℕ) (e : Mapping), f[k]? = some e → e.ppn < 2 ^ 44

theorem pageOf_mul (vpn : ℕ) : pageOf vpn * 4096 = vpnShift vpn := by
  rw [pageOf,vpnShift_eq]
  omega

theorem Represents.mapped (r : Represents m pt root f) (h : f[pageOf vpn]? ≠ none) :
    checkUserVa (vpnShift vpn) = true ∧ entryAt m root (vpnShift vpn) ≠ none := by
  have hc := r.accepted _ h
  rw [pageOf_mul] at hc
  refine ⟨hc,fun hn => h ?_⟩
  rw [pageOf,← r.entries _ hc,hn]
  rfl

theorem Represents.edit {m' : Machine} {f' : PageMap} {new : List ℕ} {o : Option ℕ}
    (r : Represents m pt root f) (hc : checkUserVa (vpnShift vpn) = true)
    (ed : Edited m m' root (vaPath (vpnShift vpn)) (vaIndex (vpnShift vpn)) new o)
    (hf : ∀ k, f'[k]? = if k = pageOf vpn then o.map decodeEntry else f[k]?)
    (hb : ∀ w, o = some w → PageTableEntry.ppn w < 2 ^ 44) :
    Represents m' { pt with frames := pt.frames ++ new } root f' := by
  refine ⟨r.rootPaddr,?_,?_,?_,?_⟩
  · have grown := ed.toExtended.tree r.tree
    refine grown.weaken ?_ ?_ ?_
    · rintro g (old | fresh)
      · exact List.mem_append_left _ old
      · exact List.mem_append_right _ fresh
    · intro g hg
      exact grown.inRam g (List.mem_append.mp hg)
    · intro g hg
      exact grown.notFree g (List.mem_append.mp hg)
  · intro va hva
    have hentry := ed.entry hc hva
    rw [← pageOf] at hentry
    rw [hentry,hf]
    by_cases hp : va / 4096 = pageOf vpn
    · rw [if_pos hp,if_pos hp]
    · rw [if_neg hp,if_neg hp]
      exact r.entries va hva
  · intro k hk
    rw [hf] at hk
    by_cases hp : k = pageOf vpn
    · rw [hp,pageOf_mul]
      exact hc
    · rw [if_neg hp] at hk
      exact r.accepted k hk
  · intro k e hk
    rw [hf] at hk
    by_cases hp : k = pageOf vpn
    · rw [if_pos hp] at hk
      obtain ⟨w,hw,rfl⟩ := Option.map_eq_some_iff.mp hk
      exact hb w hw
    · rw [if_neg hp] at hk
      exact r.bounded k e hk

def StepPost (m : Machine) (root : ℕ) (f : PageMap) (pt' : PageTable) (m' : Machine) : Prop :=
  Represents m' pt' root f ∧
    m.frameAllocator.free.length ≤ m'.frameAllocator.free.length + 2

def FewFrames (m : Machine) (n : ℕ) : Panic → Machine → Prop :=
  fun e _ => e = .outOfFrames ∧ m.frameAllocator.free.length < n

theorem decode_mappedWord (hp : ppn < 2 ^ 44) (flags : PTEFlags) :
    decodeEntry (mappedWord ppn flags) =
      ⟨ppn, flags ||| PTEFlags.V ||| PTEFlags.A ||| PTEFlags.D⟩ := by
  have hor : flags ||| PTEFlags.A ||| PTEFlags.D ||| PTEFlags.V =
      flags ||| PTEFlags.V ||| PTEFlags.A ||| PTEFlags.D := by
    revert flags
    decide
  rw [decodeEntry,mappedWord,ppn_new hp,flags_new,hor]

theorem map_step (r : Represents m pt root f) (flags : PTEFlags)
    (legal : (TableOp.map vpn ppn flags).Legal f) : Holds ((TableOp.map vpn ppn flags).run pt) m
      (StepPost m root ((TableOp.map vpn ppn flags).apply f)) (FewFrames m 2) := by
  obtain ⟨hc,hp,hfree⟩ := legal
  have hempty : entryAt m root (vpnShift vpn) = none := by
    have he := r.entries _ hc
    rw [← pageOf,hfree] at he
    exact Option.map_eq_none_iff.mp he
  refine (mapOne_holds r.tree r.rootPaddr vpn ppn flags).mono ?_ ?_
  · rintro pt' m' ⟨-,-,new,rfl,hlen,ed⟩
    refine ⟨r.edit hc ed ?_ ?_,?_⟩
    · intro k
      rw [Option.map_some,decode_mappedWord hp,TableOp.apply,OrderedMaps.getElem?_insert]
    · rintro w hw
      cases hw
      rw [mappedWord,ppn_new hp]
      exact hp
    · rw [ed.free,List.length_append]
      omega
  · rintro e m' (⟨-,hn,-⟩ | ⟨-,⟨he,hfew⟩ | ⟨-,hn⟩,-⟩)
    · rw [hc] at hn
      cases hn
    · exact ⟨he,hfew⟩
    · exact (hn hempty).elim

theorem unmap_step (r : Represents m pt root f) (legal : (TableOp.unmap vpn).Legal f) :
    Holds ((TableOp.unmap vpn).run pt) m
      (StepPost m root ((TableOp.unmap vpn).apply f)) (FewFrames m 2) := by
  obtain ⟨hc,-⟩ := r.mapped legal
  refine Holds.bind ((unmap_holds r.tree r.rootPaddr vpn).onError ?_) ?_
  · rintro e m' ⟨-,hn,-⟩
    rw [hc] at hn
    cases hn
  · rintro - m' ⟨-,ed⟩
    have erased : ∀ k, (f.erase (pageOf vpn))[k]? =
        if k = pageOf vpn then (none : Option ℕ).map decodeEntry else f[k]? :=
      fun k => OrderedMaps.getElem?_erase f (pageOf vpn) k
    have kept := r.edit hc ed erased fun w hw => by cases hw
    rw [List.append_nil] at kept
    refine holds_pure ⟨kept,?_⟩
    rw [ed.free,List.nil_append]
    omega

theorem decode_replaceFlags {w : ℕ} (hw : w < 2 ^ 64) (flags : PTEFlags) :
    decodeEntry (PageTable.replaceFlags w flags) = (decodeEntry w).withAccess flags := by
  rw [decodeEntry,ppn_replaceFlags hw,flags_replaceFlags hw]
  rfl

theorem modify_step (r : Represents m pt root f) (flags : PTEFlags)
    (legal : (TableOp.modify vpn flags).Legal f) : Holds ((TableOp.modify vpn flags).run pt) m
      (StepPost m root ((TableOp.modify vpn flags).apply f)) (FewFrames m 2) := by
  obtain ⟨hc,hmapped⟩ := r.mapped legal
  refine Holds.bind ((modifyFlags_holds r.tree r.rootPaddr vpn flags).onError ?_) ?_
  · rintro e m' ⟨-,⟨-,hn⟩ | ⟨-,hn⟩⟩
    · rw [hc] at hn
      cases hn
    · exact (hmapped hn).elim
  · rintro - m' ⟨-,w,hw,hentry,ed⟩
    have hold : f[pageOf vpn]? = some (decodeEntry w) := by
      rw [pageOf,← r.entries _ hc,hentry]
      rfl
    have altered : ∀ k, ((TableOp.modify vpn flags).apply f)[k]? = if k = pageOf vpn then
        (some (PageTable.replaceFlags w flags)).map decodeEntry else f[k]? := by
      intro k
      rw [TableOp.apply,OrderedMaps.getElem?_alter,hold,Option.map_some,Option.map_some,
        decode_replaceFlags hw]
    have kept := r.edit hc ed altered fun w' hw' => by
      cases hw'
      rw [ppn_replaceFlags hw]
      exact r.bounded _ _ hold
    rw [List.append_nil] at kept
    refine holds_pure ⟨kept,?_⟩
    rw [ed.free,List.nil_append]
    omega

theorem op_step (r : Represents m pt root f) {op : TableOp} (legal : op.Legal f) :
    Holds (op.run pt) m (StepPost m root (op.apply f)) (FewFrames m 2) := by
  cases op with
  | map vpn ppn flags => exact map_step r flags legal
  | unmap vpn => exact unmap_step r legal
  | modify vpn flags => exact modify_step r flags legal

theorem run_represents (ops : List TableOp) : ∀ {m : Machine} {pt : PageTable} {f : PageMap},
    Represents m pt root f → LegalRun f ops →
    Holds (ops.foldlM TableOp.run pt) m
      (fun pt' m' => Represents m' pt' root (ops.foldl TableOp.apply f))
      (FewFrames m (2 * ops.length)) := by
  induction ops with
  | nil =>
    intro m pt f r _
    exact holds_pure r
  | cons op ops ih =>
    intro m pt f r legal
    refine Holds.bind ((op_step r legal.1).onError ?_) ?_
    · rintro e m' ⟨he,hfew⟩
      refine ⟨he,?_⟩
      rw [List.length_cons]
      omega
    · rintro pt' m' ⟨r',hlen⟩
      refine (ih r' legal.2).onError ?_
      rintro e m'' ⟨he,hfew⟩
      refine ⟨he,?_⟩
      rw [List.length_cons]
      omega

theorem new_represents (ram : ∀ f ∈ m.frameAllocator.free, InRam f) :
    Holds PageTable.new m
      (fun pt m' => ∃ root, Represents m' pt root ∅ ∧
        m.frameAllocator.free.length = m'.frameAllocator.free.length + 1)
      (FewFrames m 1) := by
  unfold PageTable.new Holds
  cases ha : m.frameAllocator.alloc with
  | none =>
    rw [bind_error (allocFrameUnwrap_none ha)]
    refine ⟨rfl,?_⟩
    rw [alloc_eq_none ha]
    simp
  | some xr =>
    obtain ⟨x,rest⟩ := xr
    have hfree := alloc_eq_some ha
    have hx : InRam x := ram x (alloc_mem ha)
    rw [bind_ok (allocFrameUnwrap_some ha hx)]
    have blank : ∀ j, pteFormat.valid (tableHeap (takeFrame m x rest) x j) = false := by
      intro j
      change PageTableEntry.isValid (readWord ((takeFrame m x rest).ram x) j) = false
      rw [takeFrame_ram_self,readWord_zero,isValid_zero]
    refine ⟨x,⟨ppnToPhys_frame hx,⟨?_,?_,?_,?_,?_⟩,?_,?_,?_⟩,?_⟩
    · intro p q g _ _ hp hq
      rw [(reach_blank blank hp).1,(reach_blank blank hq).1]
    · intro p g _ hp
      rw [(reach_blank blank hp).2]
      exact List.mem_singleton_self x
    · intro g hg
      rw [List.mem_singleton.mp hg]
      exact hx
    · intro g hg
      rw [List.mem_singleton.mp hg]
      exact alloc_not_mem ha
    · intro g hg
      exact ram g (alloc_sub ha g hg)
    · intro va _
      have hnone : entryAt (takeFrame m x rest) x va = none := by
        cases he : entryAt (takeFrame m x rest) x va with
        | none => rfl
        | some w =>
          obtain ⟨g,hg,-⟩ := lookup_eq_some he
          cases (reach_blank blank hg).1
      rw [hnone]
      simp
    · intro k hk
      simp at hk
    · intro k e hk
      simp at hk
    · rw [hfree]
      rfl

/-- What both translations answer for an accepted address. -/
def Translates (m : Machine) (pt : PageTable) (va : ℕ) : Option Mapping → Prop
  | none => PageTable.translateVaToPte pt va m = .ok none m
  | some e => ∃ slot, PageTable.translateVaToPte pt va m = .ok (some slot) m ∧
      PageTableEntry.ppn (pteWord m slot.frame slot.index) = e.ppn ∧
      PageTableEntry.flags (pteWord m slot.frame slot.index) = e.flags ∧
      PageTable.translateVaToPa pt va m = .ok (some (e.ppn * 4096 + va % 4096)) m

theorem Represents.translates (r : Represents m pt root f) {va : ℕ}
    (hc : checkUserVa va = true) : Translates m pt va f[va / 4096]? := by
  have hfind := findPte_eq r.tree r.rootPaddr va
  rw [hc,if_pos rfl] at hfind
  have hentries := r.entries va hc
  cases hs : slotAt m root va with
  | none =>
    rw [slotAt_eq_none.mp hs] at hentries
    rw [← hentries]
    rw [hs] at hfind
    exact hfind
  | some s =>
    obtain ⟨-,-,hvalid,he⟩ := slotAt_eq_some hs
    rw [he] at hentries
    have hbound := r.bounded _ _ hentries.symm
    rw [hs] at hfind
    rw [← hentries]
    refine ⟨s,hfind,rfl,rfl,?_⟩
    have hoff := vaddrOffset_eq va m
    rw [hc,if_pos rfl] at hoff
    have hassert := assertThat_eq (PageTableEntry.isValid (pteWord m s.frame s.index)) m
    rw [hvalid,if_pos rfl] at hassert
    unfold PageTable.translateVaToPa PageTable.translateVaToPte
    rw [bind_ok hoff,bind_ok hfind]
    dsimp only
    rw [bind_ok (readPte_eq s m),hvalid,bind_ok hassert]
    change PageTableEntry.ppn (pteWord m s.frame s.index) < 2 ^ 44 at hbound
    have hsum : wrappingAdd (ppnToPhys (PageTableEntry.ppn (pteWord m s.frame s.index)))
        (va % 4096) = PageTableEntry.ppn (pteWord m s.frame s.index) * 4096 + va % 4096 := by
      rw [ppnToPhys_of_lt (by omega)]
      exact wrappingAdd_of_lt (by omega)
    rw [hsum]
    rfl

/-- From an empty table, every legal history leaves exactly the map it describes; it can
stop only for want of frames, of which one for the root and two for each operation suffice. -/
theorem table_refines_map (m : Machine) (ram : ∀ f ∈ m.frameAllocator.free, InRam f)
    (ops : List TableOp) (legal : LegalRun ∅ ops) :
    Holds (PageTable.new >>= fun pt => ops.foldlM TableOp.run pt) m
      (fun pt m' => ∀ va, checkUserVa va = true →
        Translates m' pt va (ops.foldl TableOp.apply (∅ : PageMap))[va / 4096]?)
      (FewFrames m (1 + 2 * ops.length)) := by
  refine Holds.bind ((new_represents ram).onError ?_) ?_
  · rintro e m' ⟨he,hfew⟩
    exact ⟨he,by omega⟩
  · rintro pt m' ⟨root,r,hlen⟩
    refine (run_represents ops r legal).mono ?_ ?_
    · intro pt' m'' r' va hc
      exact r'.translates hc
    · rintro e m'' ⟨he,hfew⟩
      exact ⟨he,by omega⟩

/-- Two pages that share the upper tables, one of them in a kernel window. -/
def tableHistory : List TableOp :=
  [.map 0x10 0x80600 PTEFlags.R, .map 0x11 0x80601 (PTEFlags.R ||| PTEFlags.U),
    .modify 0x10 (PTEFlags.R ||| PTEFlags.W), .map 0xffffffff80200 0x80200 PTEFlags.X,
    .unmap 0x11]

theorem tableHistory_legal : LegalRun ∅ tableHistory := by decide +kernel

theorem coldMachine_inRam {first n : ℕ} (hfirst : 0x80200 ≤ first) (hlast : first + n ≤ 0x88000) :
    ∀ f ∈ (coldMachine first n).frameAllocator.free, InRam f := by
  intro f hf
  have hm := List.mem_range'_1.mp hf
  unfold InRam
  omega

theorem table_refines_map_cold : ∃ m, m = coldMachine 0x80400 16 ∧ LegalRun ∅ tableHistory ∧
    Holds (PageTable.new >>= fun pt => tableHistory.foldlM TableOp.run pt) m
      (fun pt m' => ∀ va, checkUserVa va = true →
        Translates m' pt va (tableHistory.foldl TableOp.apply (∅ : PageMap))[va / 4096]?)
      (FewFrames m (1 + 2 * tableHistory.length)) := by
  refine ⟨coldMachine 0x80400 16,rfl,tableHistory_legal,?_⟩
  have ram := coldMachine_inRam (n := 16) (by decide : 0x80200 ≤ 0x80400) (by decide)
  generalize coldMachine 0x80400 16 = m at ram ⊢
  exact table_refines_map m ram tableHistory tableHistory_legal

end DuckOs.PageTableRefinement
