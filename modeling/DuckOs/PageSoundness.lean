import DuckOs.SoundUnmap

namespace DuckOs.PageSoundness
open ExecutionRules AddressModel PermissionFlags KernelMachine PageTableModel PageTableTree
open PageTableOperations PageTableSharing BootMachine PageModel VirtMemoryModel
open MemorySetModel MemorySyscalls FrameOwnership SegmentViews SegmentUnmap
open SegmentPush SegmentProtect SpaceOperations SyscallSteps UnmapRounds SoundSpaces SoundUnmap
open OrderedMaps

variable {areas : VmaRange} {pos key last a first k : ℕ} {page : Page} {x vma : VirtMemoryAddr}
  {op : SpaceOp}

section Protect

variable {b : ℕ} {w : View} {i : ℕ}

def CutFirst (a b : ℕ) (areas : VmaRange) : Prop :=
  ∃ (k : ℕ) (vma : VirtMemoryAddr), areas[k]? = some vma ∧ Overlaps vma a b ∧ vma.startVaddr < a

def CutLast (a b : ℕ) (areas : VmaRange) : Prop :=
  ∃ (k : ℕ) (vma : VirtMemoryAddr), areas[k]? = some vma ∧ Overlaps vma a b ∧ b < vma.endVaddr

def Settled (areas : VmaRange) (pos : ℕ) : Prop :=
  ∀ vma, areas[pos]? = some vma →
    (∀ v : ℕ, vma.pma.pageManager[v]? = none) ∨ vma.pma.pageManager[pos / 4096]? ≠ none

theorem settled_of_vacant (h : Vacant areas pos) : Settled areas pos :=
  fun vma hk => .inl (h vma hk)

theorem Settled.vacant (h : Settled areas pos)
    (unique : ∀ (k k' v : ℕ) (page page' : Page), HoldsPage areas k v page →
      HoldsPage areas k' v page' → k = k')
    (hne : i ≠ pos) (hi : HoldsPage areas i (pos / 4096) page) : Vacant areas pos := by
  intro vma hk
  rcases h vma hk with hnone | hsome
  · exact hnone
  · obtain ⟨page',hpage'⟩ := Option.ne_none_iff_exists'.mp hsome
    exact (hne (unique i pos _ page page' hi ⟨vma,hk,hpage'⟩)).elim

structure ProtectSound (a b : ℕ) (w : View) : Prop where
  sound : Sound w
  first : CutFirst a b w.areas → Settled w.areas a
  last : CutLast a b w.areas → Settled w.areas b

theorem cut_insert {P : VirtMemoryAddr → Prop}
    (h : ∃ (k : ℕ) (vma : VirtMemoryAddr), (areas.insert key x)[k]? = some vma ∧ P vma) :
    P x ∨ ∃ (k : ℕ) (vma : VirtMemoryAddr), areas[k]? = some vma ∧ P vma := by
  obtain ⟨k,vma,hk,hP⟩ := h
  rw [getElem?_insert] at hk
  split at hk
  · cases hk
    exact .inl hP
  · exact .inr ⟨k,vma,hk,hP⟩

theorem settled_insert_ne (x : VirtMemoryAddr) (hne : key ≠ pos)
    (h : Settled areas pos) : Settled (areas.insert key x) pos := by
  intro vma hk
  rw [getElem?_insert,if_neg hne.symm] at hk
  exact h vma hk

theorem settled_insert_self (areas : VmaRange)
    (h : (∀ v : ℕ, x.pma.pageManager[v]? = none) ∨ x.pma.pageManager[pos / 4096]? ≠ none) :
    Settled (areas.insert pos x) pos := by
  intro vma hk
  rw [getElem?_insert,if_pos rfl] at hk
  cases hk
  exact h

theorem settled_insert_part
    (hi : areas[i]? = some vma) (h : Settled areas pos)
    (sub : ∀ (v : ℕ) (page : Page), x.pma.pageManager[v]? = some page →
      vma.pma.pageManager[v]? = some page)
    (keep : i = pos → vma.pma.pageManager[pos / 4096]? ≠ none →
      x.pma.pageManager[pos / 4096]? ≠ none) : Settled (areas.insert i x) pos := by
  by_cases hip : i = pos
  · subst hip
    refine settled_insert_self areas ?_
    rcases h vma hi with hnone | hsome
    · refine .inl fun v => ?_
      cases hv : x.pma.pageManager[v]? with
      | none => rfl
      | some page =>
        have hsub := sub v page hv
        rw [hnone v] at hsub
        cases hsub
    · exact .inr (keep rfl hsome)
  · exact settled_insert_ne x hip h

section Round

variable (h : ProtectSound a b w) (ha : 4096 ∣ a) (hb : 4096 ∣ b) (hab : a < b)
  (hi : w.areas[i]? = some vma) (flags : MapPermission)

include h hi

theorem ProtectSound.recolour (pages : BTreeMap Page) :
    ProtectSound a b ⟨w.areas.insert i (recolour vma flags), reflag w.pte pages flags⟩ := by
  have hsettled : ∀ pos, Settled w.areas pos →
      Settled (w.areas.insert i (SegmentProtect.recolour vma flags)) pos := fun _ hold =>
    settled_insert_part hi hold (fun _ _ hv => hv) fun _ hp => hp
  refine ⟨h.sound.recolour hi flags pages,fun hcut => ?_,fun hcut => ?_⟩
  · exact hsettled a (h.first ((cut_insert hcut).elim (fun hc => ⟨i,vma,hi,hc⟩) id))
  · exact hsettled b (h.last ((cut_insert hcut).elim (fun hc => ⟨i,vma,hi,hc⟩) id))

include hab

/-- The segment is cut at one end of the range. -/
theorem ProtectSound.split (hcut : pos = a ∨ pos = b) (hpos : 4096 ∣ pos) (ho : Overlaps vma a b)
    (hlt : vma.startVaddr < pos) (hend : pos < vma.endVaddr) (ready : SplitReady vma pos) :
    ProtectSound a b ⟨(w.areas.insert i (leftPart vma pos)).insert pos (rightPart vma pos),
      w.pte⟩ := by
  have tidy := h.sound.tidy i vma hi
  have hkey := tidy.key
  obtain ⟨page,hpage⟩ := Option.ne_none_iff_exists'.mp
    (ready.resident (pos / 4096) le_rfl (by have := tidy.last; omega))
  have settled : Settled w.areas pos := by
    rcases hcut with rfl | rfl
    · exact h.first ⟨i,vma,hi,ho,hlt⟩
    · exact h.last ⟨i,vma,hi,ho,hend⟩
  have vacant := settled.vacant h.sound.unique (by omega : i ≠ pos) ⟨vma,hi,hpage⟩
  have hright : (rightPart vma pos).pma.pageManager[pos / 4096]? = some page :=
    (rightPart_page tidy).mpr ⟨hpage,le_rfl⟩
  have hself : Settled ((w.areas.insert i (leftPart vma pos)).insert pos (rightPart vma pos)) pos :=
    settled_insert_self _ (.inr (Option.ne_none_iff_exists'.mpr ⟨page,hright⟩))
  refine ⟨h.sound.split hi hpos hlt vacant,fun hc => ?_,fun hc => ?_⟩ <;>
    rcases hcut with rfl | rfl
  · exact hself
  · have hold := h.first ((cut_insert hc).elim (fun hc => absurd hc.2 hab.not_gt)
      fun hc => (cut_insert hc).elim (fun hc => ⟨i,vma,hi,ho,hc.2⟩) id)
    refine settled_insert_ne _ hab.ne' (settled_insert_part hi hold
      (fun v p hv => ((leftPart_page tidy).mp hv).1) fun hia hp => ?_)
    obtain ⟨p,hp⟩ := Option.ne_none_iff_exists'.mp hp
    exact Option.ne_none_iff_exists'.mpr ⟨p,(leftPart_page tidy).mpr ⟨hp,by omega⟩⟩
  · have hold := h.last ((cut_insert hc).elim (fun hc => ⟨i,vma,hi,ho,hc.2⟩)
      fun hc => (cut_insert hc).elim (fun hc => absurd hc.2 hab.not_gt) id)
    exact settled_insert_ne _ hab.ne (settled_insert_ne _ (by omega) hold)
  · exact hself

omit h hab hi in
theorem getElem?_cut (areas : VmaRange) (hne : i ≠ pos) (left right : VirtMemoryAddr) :
    ((areas.insert i left).insert pos right)[i]? = some left ∧
      ((areas.insert i left).insert pos right)[pos]? = some right := by
  rw [getElem?_insert,if_neg hne,getElem?_insert,if_pos rfl,getElem?_insert,if_pos rfl]
  exact ⟨rfl,rfl⟩

include hb in
theorem protect_left (hr : b < vma.endVaddr) (ho : Overlaps vma a b) (ready : SplitReady vma b) :
    ProtectSound a b ⟨(w.areas.insert i (recolour (leftPart vma b) flags)).insert b
      (rightPart vma b), reflag w.pte (leftPart vma b).pma.pageManager flags⟩ := by
  have hov := overlaps_iff.mp ho
  have hne : i ≠ b := ((h.sound.tidy i vma hi).key.trans_lt hov.1).ne
  have sound := (h.split hab hi (.inr rfl) hb ho hov.1 hr ready).recolour
    (getElem?_cut _ hne _ _).1 flags (leftPart vma b).pma.pageManager
  dsimp only at sound
  rwa [insert_comm _ hne.symm,insert_insert] at sound

include ha hb in
theorem protect_inside (hl : vma.startVaddr < a) (hr : b < vma.endVaddr) (ho : Overlaps vma a b)
    (right : SplitReady vma b) (inner : SplitReady (leftPart vma b) a) :
    ProtectSound a b ⟨((w.areas.insert i (leftPart (leftPart vma b) a)).insert b
      (rightPart vma b)).insert a (recolour (rightPart (leftPart vma b) a) flags),
      reflag w.pte (rightPart (leftPart vma b) a).pma.pageManager flags⟩ := by
  have hov := overlaps_iff.mp ho
  have hkey := (h.sound.tidy i vma hi).key
  have hib : i ≠ b := (hkey.trans_lt hov.1).ne
  have hia : i ≠ a := (hkey.trans_lt hl).ne
  have cut := h.split hab hi (.inr rfl) hb ho hov.1 hr right
  have sound := (cut.split hab (getElem?_cut _ hib _ _).1 (.inl rfl) ha
    (overlaps_iff.mpr ⟨hov.1,hab⟩) hl hab inner).recolour (getElem?_cut _ hia _ _).2 flags
    (rightPart (leftPart vma b) a).pma.pageManager
  dsimp only at sound
  rwa [insert_insert,insert_comm _ hib.symm,insert_insert] at sound

include ha in
theorem protect_right (hl : vma.startVaddr < a) (ho : Overlaps vma a b) (ready : SplitReady vma a) :
    ProtectSound a b ⟨(w.areas.insert i (leftPart vma a)).insert a
      (recolour (rightPart vma a) flags), reflag w.pte
        (rightPart vma a).pma.pageManager flags⟩ := by
  have hne : i ≠ a := ((h.sound.tidy i vma hi).key.trans_lt hl).ne
  have sound := (h.split hab hi (.inl rfl) ha ho hl (overlaps_iff.mp ho).2 ready).recolour
    (getElem?_cut _ hne _ _).2 flags (rightPart vma a).pma.pageManager
  dsimp only at sound
  rwa [insert_insert] at sound

end Round

theorem protectAt_sound (ha : 4096 ∣ a) (hb : 4096 ∣ b) (hab : a < b) (flags : MapPermission)
    (h : ProtectSound a b w)
    (ready : ∀ vma, w.areas[i]? = some vma → ProtectReady vma a b) :
    ProtectSound a b (protectAt a b flags w i) := by
  unfold protectAt
  cases hi : w.areas[i]? with
  | none => exact h
  | some vma =>
    have hready := ready vma hi
    unfold protectVma protectedPages
    by_cases ho : Overlaps vma a b
    swap
    · simp only [ho,not_false_eq_true,if_true,insertAll,List.foldl_nil,reflag_empty]
      rw [insert_self hi]
      exact h
    simp only [ho,not_true_eq_false,if_false]
    by_cases hl : a ≤ vma.startVaddr <;> by_cases hr : b < vma.endVaddr
    · simp only [hl,hr,if_true]
      exact protect_left h hb hab hi flags hr ho (hready.right ho hr)
    · simp only [hl,hr,if_true,if_false]
      exact h.recolour hi flags _
    · simp only [hl,hr,if_true,if_false]
      have hl' := not_le.mp hl
      exact protect_inside h ha hb hab hi flags hl' hr ho (hready.right ho hr)
        (hready.inner ho hl' hr)
    · simp only [hl,hr,if_false]
      have hl' := not_le.mp hl
      exact protect_right h ha hab hi flags hl' ho (hready.left ho hl' (not_lt.mp hr))

theorem protectRounds_sound (ha : 4096 ∣ a) (hb : 4096 ∣ b) (hab : a < b)
    (flags : MapPermission) : ∀ (keys : List ℕ) (w : View), ProtectSound a b w →
    ProtectRounds a b flags w keys → ProtectSound a b (keys.foldl (protectAt a b flags) w) := by
  intro keys
  induction keys with
  | nil => exact fun w h _ => h
  | cons i keys ih =>
    exact fun w h hr => ih _ (protectAt_sound ha hb hab flags h hr.1) hr.2

end Protect

section Operations

/-- The operation loses no page and leaves no page outside its segment. -/
def SpaceOp.Sane (op : SpaceOp) (areas : VmaRange) : Prop :=
  match op with
  | .push first _ _ mapType _ _ _ _ => mapType = .framed ∧ Vacant areas (pageDown first)
  | .mmapAnywhere hint len _ mapType _ _ => mapType = .framed ∧ 0 < len ∧
      max hint mmapBottom + len < 2 ^ 64 ∧
      ∀ (k : ℕ) (vma : VirtMemoryAddr), areas[k]? = some vma → vma.endVaddr + len < 2 ^ 64
  | .mmapFixed first last _ mapType _ _ => mapType = .framed ∧ first < last ∧
      UnmapSafe areas first last ∧ ∀ vma, areas[pageDown first]? = some vma →
        ∀ v : ℕ, vma.pma.pageManager[v]? ≠ none → v < pageUp last / 4096
  | .munmap first last => UnmapSafe areas first last
  | .mprotect first last _ => 4096 ∣ first ∧ 4096 ∣ last ∧ first < last ∧
      (CutFirst first last areas → Vacant areas first) ∧
      (CutLast first last areas → Vacant areas last)
  | .expand first last => first ≤ last ∧ 4096 ∣ last
  | .fault vaddr => ∀ key vma, findVm areas vaddr = some (key, vma) → vaddr ≠ vma.endVaddr

variable {w w' : View}

theorem freshVma_tidy (first last : ℕ) (permission : MapPermission) (vmaType : VmaType)
    (handler : Option PageFaultHandler) (file : Option BackenFile) :
    Tidy (pageDown first) (freshVma first last permission .framed vmaType handler file) := by
  refine ⟨le_rfl,rfl,pageDown_dvd first,pageUp_dvd last,fun v page hv => ?_⟩
  change (∅ : BTreeMap Page)[v]? = _ at hv
  cases hv

theorem findAnywhere_vacant (h : Sound w) {hint len : ℕ} (hlen : 0 < len)
    (hhint : max hint mmapBottom + len < 2 ^ 64)
    (hends : ∀ (k : ℕ) (vma : VirtMemoryAddr), w.areas[k]? = some vma → vma.endVaddr + len < 2 ^ 64)
    (hfind : VmaRange.findAnywhere w.areas hint len = some a) : Vacant w.areas (pageDown a) := by
  obtain ⟨-,hfrom,pre,post,hl,hpre,hlimit⟩ := findAnywhereLoop_some _ _ hfind
  have hsum : a + len < 2 ^ 64 := by
    rcases hfrom with rfl | ⟨e,he,rfl⟩
    · exact hhint
    · exact hends e.1 e.2 (mem_toList.mp he)
  rw [wrappingAdd_of_lt hsum] at hlimit
  intro vma hk v
  cases hv : vma.pma.pageManager[v]? with
  | none => rfl
  | some page =>
    exfalso
    have tidy := h.tidy _ vma hk
    have hkey := tidy.key
    have hin := tidy.inside v page hv
    have hmem := mem_toList.mpr hk
    rw [hl] at hmem
    unfold pageDown at hkey
    rcases List.mem_append.mp hmem with hbefore | hafter
    · have hend := hpre _ hbefore
      dsimp only at hend
      omega
    · have hsorted := sorted_toList w.areas
      rw [hl] at hsorted
      have hpost := (List.pairwise_append.mp hsorted).2.1
      have hge : gapLimit post ≤ pageDown a := by
        cases post with
        | nil => cases hafter
        | cons e post =>
          rcases List.mem_cons.mp hafter with heq | hrest
          · exact (congrArg Prod.fst heq).ge
          · exact (List.rel_of_pairwise_cons hpost hrest).le
      unfold pageDown at hge
      omega

theorem expand_sound (h : Sound w) (found : w.areas[key]? = some vma) (ends : vma.endVaddr = first)
    (hle : first ≤ last) (hlast : 4096 ∣ last) :
    Sound ⟨w.areas.insert key (vma.expand last), w.pte⟩ := by
  have tidy := h.tidy key vma found
  refine h.same_pages (forall_insert h.tidy ?_) (fun k v page => ?_) (fun _ _ he => he)
    fun _ hv => hv
  · refine ⟨tidy.key,tidy.framed,tidy.first,hlast,fun v page hv => ?_⟩
    have hin := tidy.inside v page hv
    have hdiv : vma.endVaddr / 4096 ≤ last / 4096 := Nat.div_le_div_right (ends ▸ hle)
    exact ⟨hin.1,lt_of_lt_of_le hin.2 hdiv⟩
  · exact holdsPage_replace found rfl

theorem push_sound (h : Sound w) {pages : BTreeMap Page} (tidy : Tidy vma.startVaddr vma)
    (vacant : Vacant w.areas vma.startVaddr) (effect : PushEffect vma pages w w')
    (small : ∀ (k v : ℕ) (page : Page), HoldsPage w'.areas k v page → page.ppn < 2 ^ 44) :
    Sound w' := by
  obtain ⟨hkeys,hunmapped,rfl⟩ := effect
  have hin : ∀ (v : ℕ) (page : Page), pages[v]? = some page →
      vma.startVaddr / 4096 ≤ v ∧ v < vma.endVaddr / 4096 := fun v page hv =>
    (hkeys v).mp (Option.ne_none_iff_exists'.mpr ⟨page,hv⟩)
  refine h.add vma.startVaddr (forall_insert h.tidy
    ⟨tidy.key,tidy.framed,tidy.first,tidy.last,hin⟩) (fun k v page => ?_) (fun v hv => ?_)
    fun v page hv => small vma.startVaddr v page (holdsPage_insert.mpr (.inl ⟨rfl,hv⟩))
  · rw [holdsPage_insert]
    constructor
    · rintro (hnew | ⟨-,hold⟩)
      · exact .inr hnew
      · exact .inl hold
    · rintro (hold | hnew)
      · exact .inr ⟨fun hc => vacant.not_holds (hc ▸ hold),hold⟩
      · exact .inl hnew
  · obtain ⟨h₁,h₂⟩ := (hkeys v).mp hv
    exact hunmapped v h₁ h₂

theorem fault_sound (h : Sound w) {vaddr : ℕ} (hend : vaddr ≠ vma.endVaddr)
    (effect : FaultEffect vaddr key vma page w w')
    (small : ∀ (k v : ℕ) (page : Page), HoldsPage w'.areas k v page → page.ppn < 2 ^ 44) :
    Sound w' := by
  obtain ⟨found,-,hnone,flags,rfl⟩ := effect
  obtain ⟨hkey,hge,hle⟩ := findVm_some found
  have tidy := h.tidy key vma hkey
  have hlast := tidy.last
  have empty : vma.pma.pageManager[vaddr / 4096]? = none := by
    cases hv : vma.pma.pageManager[vaddr / 4096]? with
    | none => rfl
    | some old =>
      obtain ⟨word,hword,-⟩ := h.entry key _ old ⟨vma,hkey,hv⟩
      rw [hnone] at hword
      cases hword
  have hpages : ∀ v : ℕ, ((∅ : BTreeMap Page).insert (vaddr / 4096) page)[v]? =
      if v = vaddr / 4096 then some page else none := by
    intro v
    rw [getElem?_insert,Std.ExtTreeMap.getElem?_empty]
  have hentries : Function.update w.pte (vaddr / 4096) (some (mappedWord page.ppn flags)) =
      overlay w.pte ((∅ : BTreeMap Page).insert (vaddr / 4096) page) flags := by
    have hempty : overlay w.pte ∅ flags = w.pte := by
      funext v
      exact overlay_none Std.ExtTreeMap.getElem?_empty
    rw [overlay_insert,hempty]
  have hheld : ∀ v : ℕ, (withPage vma (vaddr / 4096) page).pma.pageManager[v]? =
      if v = vaddr / 4096 then some page else vma.pma.pageManager[v]? := fun v =>
    getElem?_insert _ _ _ _
  rw [hentries]
  refine h.add key (forall_insert h.tidy ⟨tidy.key,tidy.framed,tidy.first,hlast,?_⟩)
    (fun k v p => ?_) (fun v hv => ?_) fun v p hv => small key v p ?_
  · intro v p hv
    rw [hheld v] at hv
    split_ifs at hv with heq
    · change vma.startVaddr / 4096 ≤ v ∧ v < vma.endVaddr / 4096
      omega
    · exact tidy.inside v p hv
  · rw [holdsPage_insert,hheld v,hpages v]
    by_cases hv : v = vaddr / 4096
    · rw [if_pos hv,if_pos hv]
      constructor
      · rintro (hnew | ⟨-,hold⟩)
        · exact .inr hnew
        · exact .inl hold
      · rintro (⟨vma',hk,hold⟩ | hnew)
        · by_cases hkk : k = key
          · rw [hkk,hkey] at hk
            cases hk
            rw [hv,empty] at hold
            cases hold
          · exact .inr ⟨hkk,vma',hk,hold⟩
        · exact .inl hnew
    · rw [if_neg hv,if_neg hv,← holdsPage_insert,holdsPage_replace hkey rfl]
      simp
  · rw [hpages v] at hv
    split_ifs at hv with heq
    · rw [heq]
      exact hnone
    · exact (hv rfl).elim
  · rw [hpages v] at hv
    split at hv
    · rename_i heq
      refine holdsPage_insert.mpr (.inl ⟨rfl,?_⟩)
      rw [hheld v,if_pos heq]
      exact hv
    · cases hv

theorem fixed_vacant (h : Sound w) (hlt : first < last)
    (covered : ∀ vma, w.areas[pageDown first]? = some vma →
      ∀ v : ℕ, vma.pma.pageManager[v]? ≠ none → v < pageUp last / 4096) :
    Vacant (w.unmap first last).areas (pageDown first) := by
  intro vma' hk v
  cases hv : vma'.pma.pageManager[v]? with
  | none => rfl
  | some page =>
    exfalso
    obtain ⟨i,⟨vma,hi,hpage⟩,hplace,hout⟩ := unmap_page_origin h hlt ⟨vma',hk,hv⟩
    have hidx : i = pageDown first := by
      unfold placeAfter at hplace
      split at hplace
      · unfold pageDown pageUp at hplace
        omega
      · exact hplace.symm
    rw [hidx] at hi
    have tidy := h.tidy _ vma hi
    have hge : pageDown first / 4096 ≤ vma.startVaddr / 4096 := Nat.div_le_div_right tidy.key
    have hin := tidy.inside v page hpage
    have hend := covered vma hi v (Option.ne_none_iff_exists'.mpr ⟨page,hpage⟩)
    omega

theorem effect_sound (h : Sound w) (sane : SpaceOp.Sane op w.areas) (effect : Effect op w w')
    (small : ∀ (k v : ℕ) (page : Page), HoldsPage w'.areas k v page → page.ppn < 2 ^ 44) :
    Sound w' := by
  cases op with
  | push first last permission mapType vmaType handler data offset =>
    obtain ⟨rfl,vacant⟩ := sane
    obtain ⟨-,-,pages,effect⟩ := effect
    exact push_sound h (freshVma_tidy first last permission vmaType handler none)
      vacant effect small
  | mmapAnywhere hint len permission mapType handler file =>
    obtain ⟨rfl,hlen,hhint,hends⟩ := sane
    rcases effect with ⟨-,rfl⟩ | ⟨a,hfind,-,-,rfl⟩
    · exact h
    · exact h.put (freshVma_tidy _ _ _ _ _ _) (fun v => Std.ExtTreeMap.getElem?_empty)
        (findAnywhere_vacant h hlen hhint hends hfind)
  | mmapFixed first last permission mapType handler file =>
    obtain ⟨rfl,hlt,safe,covered⟩ := sane
    obtain ⟨ready,-,-,rfl⟩ := effect
    exact (unmap_sound h ready safe).put (freshVma_tidy _ _ _ _ _ _)
      (fun v => Std.ExtTreeMap.getElem?_empty) (fixed_vacant h hlt covered)
  | munmap first last =>
    obtain ⟨ready,rfl⟩ := effect
    exact unmap_sound h ready sane
  | mprotect first last flags =>
    obtain ⟨ha,hb,hab,hfirst,hlast⟩ := sane
    obtain ⟨rounds,rfl⟩ := effect
    have start : ProtectSound first last w :=
      ⟨h,fun hc => settled_of_vacant (hfirst hc),fun hc => settled_of_vacant (hlast hc)⟩
    exact (protectRounds_sound ha hb hab flags _ w start rounds).sound
  | expand first last =>
    obtain ⟨hle,hdvd⟩ := sane
    rcases effect with rfl | ⟨key,vma,found,ends,-,rfl⟩
    · exact h
    · exact expand_sound h found ends hle hdvd
  | fault vaddr =>
    rcases effect with rfl | ⟨key,vma,page,effect⟩
    · exact h
    · exact fault_sound h (sane key vma effect.found) effect small

end Operations

section Runs

variable {root : ℕ} {K : ℕ → Prop} {ms : MemorySet} {m : Machine}

theorem holdsPage_live (own : Owned root K ms m) {v : ℕ} (hk : HoldsPage ms.areas k v page) :
    0 < m.strong page.ppn ∧ page.ppn ∉ m.frameAllocator.free ∧ page.ppn < 2 ^ 44 := by
  obtain ⟨vma,hvma,hv⟩ := hk
  obtain ⟨ext,s⟩ := own.space
  have hpage := weightAt_le_total (fun q => single q page.ppn) vma.pma.pageManager v
  rw [weightAt_some hv,single_self] at hpage
  have hseg := weightAt_le_total (fun x => vmaHeld x page.ppn) ms.areas k
  rw [weightAt_some hvma] at hseg
  have hcount := s.counts page.ppn
  unfold areasHeld at hcount
  unfold vmaHeld pagesHeld at hseg
  have hpos : 0 < m.strong page.ppn := by
    unfold vmaHeld pagesHeld at hcount
    omega
  obtain ⟨hfree,-,hram⟩ := s.live _ hpos
  exact ⟨hpos,hfree,lt_of_le_of_lt hram.2 (by decide)⟩

theorem Sound.allNumbered (h : Sound (msView ms m root)) : AllNumbered ms.areas := by
  intro k vma hk v hv
  obtain ⟨page,hv⟩ := Option.ne_none_iff_exists'.mp hv
  obtain ⟨word,hword,-⟩ := h.entry k v page ⟨vma,hk,hv⟩
  change pteAt m root v = _ at hword
  unfold pteAt at hword
  split at hword
  · rename_i hc
    have hlt := checkUserVa_lt hc
    omega
  · cases hword

theorem exec_sound (own : Owned root K ms m) (h : Sound (msView ms m root))
    (sane : SpaceOp.Sane op ms.areas) :
    Holds (op.exec ms) m (fun ms' m' => Owned root K ms' m' ∧ Sound (msView ms' m' root))
      (fun _ _ => True) := by
  have regular : op.Regular ms.areas := by
    cases op with
    | push first last permission mapType vmaType handler data offset => exact sane.1
    | mprotect first last flags => exact Sound.allNumbered h
    | _ => trivial
  refine (exec_effect own op regular).imp ?_
  rintro ms' m' ⟨own',-,effect⟩
  exact ⟨own',effect_sound h sane effect fun k v page hk => (holdsPage_live own' hk).2.2⟩

theorem newUser_sound {m₁ : Machine} (hempty : ms.areas = ∅)
    (hnone : ∀ v, v < 2 ^ 20 → pteAt m₁ root v = none) : Sound (msView ms m₁ root) := by
  have none_at : ∀ (k : ℕ) (vma : VirtMemoryAddr), ¬ (msView ms m₁ root).areas[k]? = some vma := by
    intro k vma hk
    change ms.areas[k]? = _ at hk
    rw [hempty] at hk
    cases hk
  exact ⟨fun k vma hk => (none_at k vma hk).elim,
    fun k _ _ _ _ hk => (none_at k _ hk.choose_spec.1).elim,
    fun k _ _ hk => (none_at k _ hk.choose_spec.1).elim,fun v hv hc => (hc (hnone v hv)).elim⟩

end Runs

/-- In every address space that sane operations lead to, a user page has an entry exactly if one
segment holds a page for it, and the entry leads to the frame of that page, which is in use. -/
theorem entries_match_pages (m : Machine) (kernel : PageTable) (kroot : ℕ)
    (booted : Booted m kernel kroot) (ms₁ : MemorySet) (m₁ : Machine)
    (created : MemorySet.newUser m = .ok ms₁ m₁) (ms : MemorySet) (m' : Machine)
    (run : Runs SpaceOp.exec (fun op ms _ => SpaceOp.Sane op ms.areas) ms₁ m₁ ms m') (v : ℕ)
    (hv : v < 2 ^ 20) :
    (entryAt m' (ms.pt.rootPaddr / 4096) (v * 4096) ≠ none ↔
      ∃! k : ℕ, ∃ (vma : VirtMemoryAddr) (page : Page), ms.areas[k]? = some vma ∧
        vma.startVaddr / 4096 ≤ v ∧ v < vma.endVaddr / 4096 ∧
        vma.pma.pageManager[v]? = some page) ∧
    ∀ word, entryAt m' (ms.pt.rootPaddr / 4096) (v * 4096) = some word →
      (∀ (k : ℕ) (vma : VirtMemoryAddr) (page : Page), ms.areas[k]? = some vma →
        vma.pma.pageManager[v]? = some page → PageTableEntry.ppn word = page.ppn) ∧
      0 < m'.strong (PageTableEntry.ppn word) ∧
      PageTableEntry.ppn word ∉ m'.frameAllocator.free := by
  obtain ⟨root,hempty,-,own₁,hnone⟩ := (newUser_owned booted).of_ok created
  obtain ⟨own,sound⟩ := Runs.invariant
    (fun ms m => Owned root (TableFrame _ kroot) ms m ∧ Sound (msView ms m root))
    (fun op ms m hinv sane => exec_sound hinv.1 hinv.2 sane) run
    ⟨own₁,newUser_sound hempty hnone⟩
  obtain ⟨ext,s⟩ := own.space
  have hroot : ms.pt.rootPaddr / 4096 = root := by
    rw [s.rootPaddr]
    omega
  have hentry : entryAt m' (ms.pt.rootPaddr / 4096) (v * 4096) = (msView ms m' root).pte v := by
    rw [hroot]
    exact (pteAt_accepted (checkUserVa_of_le (by omega))).symm
  rw [hentry]
  have hholds : ∀ k : ℕ, (∃ (vma : VirtMemoryAddr) (page : Page), ms.areas[k]? = some vma ∧
      vma.startVaddr / 4096 ≤ v ∧ v < vma.endVaddr / 4096 ∧
      vma.pma.pageManager[v]? = some page) ↔ ∃ page, HoldsPage ms.areas k v page := by
    intro k
    constructor
    · rintro ⟨vma,page,hk,-,-,hpage⟩
      exact ⟨page,vma,hk,hpage⟩
    · rintro ⟨page,vma,hk,hpage⟩
      obtain ⟨h₁,h₂⟩ := (sound.tidy k vma hk).inside v page hpage
      exact ⟨vma,page,hk,h₁,h₂,hpage⟩
  constructor
  · constructor
    · intro hpte
      obtain ⟨k,page,hk⟩ := sound.held v hv hpte
      refine ⟨k,(hholds k).mpr ⟨page,hk⟩,fun k' hk' => ?_⟩
      obtain ⟨page',hk'⟩ := (hholds k').mp hk'
      exact sound.unique k' k v page' page hk' hk
    · rintro ⟨k,hk,-⟩ hc
      obtain ⟨page,hk⟩ := (hholds k).mp hk
      obtain ⟨word,hword,-⟩ := sound.entry k v page hk
      rw [hc] at hword
      cases hword
  · intro word hword
    have hppn : ∀ k page, HoldsPage ms.areas k v page → PageTableEntry.ppn word = page.ppn := by
      intro k page hk
      obtain ⟨word',hword',-,hppn⟩ := sound.entry k v page hk
      rw [hword] at hword'
      cases hword'
      exact hppn
    obtain ⟨k,page,hk⟩ := sound.held v hv (by rw [hword]; exact Option.some_ne_none word)
    obtain ⟨hpos,hfree,-⟩ := holdsPage_live own hk
    refine ⟨fun k' vma page' hk' hpage' => hppn k' page' ⟨vma,hk',hpage'⟩,?_,?_⟩
    · rw [hppn k page hk]
      exact hpos
    · rw [hppn k page hk]
      exact hfree

def mapFixed (first last : ℕ) : SpaceOp :=
  .mmapFixed first last (mmapPermission 3) .framed (some .mmap) none

def endAt (last : ℕ) (areas : VmaRange) : Bool :=
  areas.toList.all fun e => e.2.endVaddr == last

theorem endAt_segment (h : endAt last areas = true) (hk : areas[k]? = some vma) :
    vma.endVaddr = last :=
  beq_iff_eq.mp (all_toList h hk)

/-- Two pages are mapped, the second is touched and unmapped again. -/
theorem entries_match_pages_touched : ∃ ms₁ m₁ ms₂ m₂ ms m,
    MemorySet.newUser (bootMachine 64) = .ok ms₁ m₁ ∧
    Runs SpaceOp.exec (fun op ms _ => SpaceOp.Sane op ms.areas) ms₁ m₁ ms₂ m₂ ∧
    (∃! k : ℕ, ∃ (vma : VirtMemoryAddr) (page : Page), ms₂.areas[k]? = some vma ∧
      vma.startVaddr / 4096 ≤ 0x11 ∧ 0x11 < vma.endVaddr / 4096 ∧
      vma.pma.pageManager[0x11]? = some page) ∧
    Runs SpaceOp.exec (fun op ms _ => SpaceOp.Sane op ms.areas) ms₁ m₁ ms m ∧
    ¬ ∃! k : ℕ, ∃ (vma : VirtMemoryAddr) (page : Page), ms.areas[k]? = some vma ∧
      vma.startVaddr / 4096 ≤ 0x11 ∧ 0x11 < vma.endVaddr / 4096 ∧
      vma.pma.pageManager[0x11]? = some page := by
  have computed : returnsWith MemorySet.newUser (bootMachine 64) (fun ms₁ m₁ =>
      returnsWith ((mapFixed 0x10000 0x12000).exec ms₁) m₁ fun ms m => endAt 0x12000 ms.areas &&
        returnsWith ((SpaceOp.fault 0x11000).exec ms) m fun ms₂ m₂ => endAt 0x12000 ms₂.areas &&
          (entryAt m₂ (ms₂.pt.rootPaddr / 4096) (0x11 * 4096)).isSome &&
          returnsWith ((SpaceOp.munmap 0x11000 0x12000).exec ms₂) m₂ fun ms' m' =>
            entryAt m' (ms'.pt.rootPaddr / 4096) (0x11 * 4096) == none) = true := by
    decide +kernel
  obtain ⟨kernel,kroot,booted⟩ := bootMachine_booted (n := 64) (by decide) (by decide)
  generalize bootMachine 64 = m₀ at computed booted ⊢
  obtain ⟨ms₁,m₁,created,computed⟩ := returnsWith_elim computed
  obtain ⟨ms,m,step₁,computed⟩ := returnsWith_elim computed
  rw [Bool.and_eq_true] at computed
  obtain ⟨hend,computed⟩ := computed
  obtain ⟨ms₂,m₂,step₂,computed⟩ := returnsWith_elim computed
  simp only [Bool.and_eq_true] at computed
  obtain ⟨⟨hend₂,hsome⟩,computed⟩ := computed
  obtain ⟨ms',m',step₃,hnone⟩ := returnsWith_elim computed
  obtain ⟨-,hempty,-⟩ := (newUser_owned booted).of_ok created
  have sane₁ : SpaceOp.Sane (mapFixed 0x10000 0x12000) ms₁.areas := by
    rw [hempty]
    refine ⟨rfl,by decide,?_,?_⟩
    · rintro ⟨k,vma,hk,-⟩
      rw [Std.ExtTreeMap.getElem?_empty] at hk
      cases hk
    · intro vma hk
      rw [Std.ExtTreeMap.getElem?_empty] at hk
      cases hk
  have sane₂ : SpaceOp.Sane (.fault 0x11000) ms.areas := by
    intro key vma hfind
    rw [endAt_segment hend (findVm_some hfind).1]
    decide
  have sane₃ : SpaceOp.Sane (.munmap 0x11000 0x12000) ms₂.areas := by
    rintro ⟨k,vma,hk,-,-,hlast⟩
    rw [endAt_segment hend₂ hk] at hlast
    exact absurd hlast (by decide)
  have run₁ : Runs SpaceOp.exec (fun op ms _ => SpaceOp.Sane op ms.areas) ms₁ m₁ ms m :=
    Runs.refl.next sane₁ step₁
  have run₂ := run₁.next sane₂ step₂
  have run₃ := run₂.next sane₃ step₃
  have match₂ := entries_match_pages m₀ kernel kroot booted ms₁ m₁ created ms₂ m₂ run₂ 0x11
    (by decide)
  have match₃ := entries_match_pages m₀ kernel kroot booted ms₁ m₁ created ms' m' run₃ 0x11
    (by decide)
  exact ⟨ms₁,m₁,ms₂,m₂,ms',m',created,run₂,
    match₂.1.mp (Option.isSome_iff_ne_none.mp hsome),run₃,
    fun hc => match₃.1.mpr hc (beq_iff_eq.mp hnone)⟩

/-- The first of two pages is mapped anew: the second loses its segment but not its entry, and
its frame is free. -/
theorem fixed_map_leaves_entry : ∃ ms₁ m₁ ms m word,
    MemorySet.newUser (bootMachine 64) = .ok ms₁ m₁ ∧
    Runs SpaceOp.exec (fun _ _ _ => True) ms₁ m₁ ms m ∧
    entryAt m (ms.pt.rootPaddr / 4096) 0x11000 = some word ∧
    (∀ (k : ℕ) (vma : VirtMemoryAddr), ms.areas[k]? = some vma →
      vma.pma.pageManager[0x11]? = none) ∧
    PageTableEntry.ppn word ∈ m.frameAllocator.free := by
  have computed : returnsWith MemorySet.newUser (bootMachine 64) (fun ms₁ m₁ =>
      returnsWith ([mapFixed 0x10000 0x12000,.fault 0x11000,mapFixed 0x10000 0x11000].foldlM
        (fun ms op => op.exec ms) ms₁) m₁ fun ms m =>
          (ms.areas.toList.all fun e => (e.2.pma.pageManager[0x11]?).isNone) &&
          (entryAt m (ms.pt.rootPaddr / 4096) 0x11000).any fun word =>
            m.frameAllocator.free.contains (PageTableEntry.ppn word)) = true := by
    decide +kernel
  obtain ⟨ms₁,m₁,created,computed⟩ := returnsWith_elim computed
  obtain ⟨ms,m,hrun,computed⟩ := returnsWith_elim computed
  rw [Bool.and_eq_true,Option.any_eq_true] at computed
  obtain ⟨hareas,word,hword,hfree⟩ := computed
  refine ⟨ms₁,m₁,ms,m,word,created,Runs.of_foldlM _ (fun _ _ _ _ => trivial) .refl hrun,
    hword,fun k vma hk => ?_,List.contains_iff_mem.mp hfree⟩
  exact Option.isNone_iff_eq_none.mp (all_toList hareas hk)

/-- Whatever memory calls a process makes from boot on: no table frame is free or counted, no frame
has more pages than its count, no page lies in a free frame or in a table. -/
theorem frames_stay_owned (n : Fin 0x7bfc) (inodes : ℕ → Option Inode) (fds : BTreeMap File)
    (calls : List Call) : Holds (do
      let ms ← MemorySet.newUser
      calls.foldlM (fun p call => call.exec p) ⟨ms, fds⟩) { bootMachine (n + 5) with inodes }
      (fun p m => (∀ f ∈ p.vm.pt.frames, f ∉ m.frameAllocator.free ∧ m.strong f = 0) ∧
        (∀ f, areasHeld p.vm.areas f ≤ m.strong f) ∧
        ∀ (k v : ℕ) page, HoldsPage p.vm.areas k v page →
          page.ppn ∉ m.frameAllocator.free ∧ page.ppn ∉ p.vm.pt.frames)
      (fun _ _ => True) := by
  obtain ⟨_,_,b⟩ := bootMachine_booted (n := n + 5) (by omega) (by omega)
  obtain ⟨sep,mem,ram,used,free⟩ := b.tree
  refine (newUser_owned (m := { bootMachine (n + 5) with inodes })
    ⟨b.1,b.2,⟨sep,mem,ram,used,free⟩,b.live,b.caches⟩).orAny.bind ?_
  rintro ms m₁ ⟨root,-,-,own₁,-⟩
  refine (holds_foldlM (fun _ (p : Process) m => Owned root _ p.vm m) (fun call _ q _ own =>
    (call_effect own call).imp fun _ _ h => h.1.owned) calls _ m₁ own₁).imp fun p m own => ?_
  obtain ⟨ext,s⟩ := own.space
  refine ⟨fun f hf => ⟨s.tree.notFree f (.inl hf),?_⟩,fun f => ?_,fun k v page hk => ?_⟩
  · by_contra hc
    exact (s.live f (Nat.pos_of_ne_zero hc)).2.1 (.inl hf)
  · exact le_trans (Nat.le_add_right _ _) (s.counts f)
  · obtain ⟨hpos,hfree,-⟩ := holdsPage_live own hk
    exact ⟨hfree,fun hc => (s.live _ hpos).2.1 (.inl hc)⟩

end DuckOs.PageSoundness
