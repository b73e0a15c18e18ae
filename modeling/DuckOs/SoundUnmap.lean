import DuckOs.SoundSpaces

namespace DuckOs.SoundUnmap
open KernelMachine PageModel VirtMemoryModel
open SegmentViews SegmentUnmap UnmapRounds SoundSpaces
open OrderedMaps

variable {k v : ℕ} {vma right : VirtMemoryAddr} {page : Page}

section Cuts

variable {a b : ℕ}

structure CutPages (vma : VirtMemoryAddr) (a b : ℕ)
    (parts : VirtMemoryAddr × Option VirtMemoryAddr) : Prop where
  stay : ∀ (v : ℕ) (page : Page), parts.1.pma.pageManager[v]? = some page →
    vma.pma.pageManager[v]? = some page ∧ ¬ (a / 4096 ≤ v ∧ v < b / 4096) ∧
      (parts.2 ≠ none → v < b / 4096)
  move : ∀ right, parts.2 = some right → ∀ (v : ℕ) (page : Page),
    right.pma.pageManager[v]? = some page → vma.pma.pageManager[v]? = some page ∧ b / 4096 ≤ v
  keep : ∀ (v : ℕ) (page : Page), vma.pma.pageManager[v]? = some page →
    ¬ (a / 4096 ≤ v ∧ v < b / 4096) → parts.1.pma.pageManager[v]? = some page ∨
      ∃ right, parts.2 = some right ∧ right.pma.pageManager[v]? = some page

theorem cutVma_pages (h : Tidy k vma) (ho : Overlaps vma a b) :
    CutPages vma a b (cutVma vma a b) := by
  by_cases hl : a ≤ vma.startVaddr <;> by_cases hr : b < vma.endVaddr
  · rw [cutVma_left ho hl hr]
    refine ⟨fun v page hv => ?_,fun right hc => (by cases hc),fun v page hv hout => .inl ?_⟩
    · obtain ⟨hv,hle⟩ := (rightPart_page h).mp hv
      exact ⟨hv,by omega,fun hc => (hc rfl).elim⟩
    · have hin := h.inside v page hv
      exact (rightPart_page h).mpr ⟨hv,by omega⟩
  · have hr' := not_lt.mp hr
    rw [cutVma_whole ho hl hr']
    refine ⟨fun v page hv => ?_,fun right hc => (by cases hc),fun v page hv hout => ?_⟩
    · rw [h.emptied.2 v] at hv
      cases hv
    · have hin := h.inside v page hv
      omega
  · have hl' := not_le.mp hl
    rw [cutVma_inside ho hl' hr]
    refine ⟨fun v page hv => ?_,fun right hc v page hv => ?_,fun v page hv hout => ?_⟩
    · change (carve (carve _ _ _) _ _)[v]? = _ at hv
      rw [getElem?_carve] at hv
      split at hv
      · cases hv
      · rename_i hout
        obtain ⟨hv,hlt⟩ := (leftPart_page h).mp hv
        exact ⟨hv,hout,fun _ => hlt⟩
    · cases hc
      exact (rightPart_page h).mp hv
    · by_cases hlt : v < b / 4096
      · refine .inl ?_
        change (carve (leftPart vma b).pma.pageManager (a / 4096) (b / 4096))[v]? = _
        rw [getElem?_carve,if_neg hout]
        exact (leftPart_page h).mpr ⟨hv,hlt⟩
      · exact .inr ⟨_,rfl,(rightPart_page h).mpr ⟨hv,not_lt.mp hlt⟩⟩
  · have hl' := not_le.mp hl
    have hr' := not_lt.mp hr
    rw [cutVma_right ho hl' hr']
    refine ⟨fun v page hv => ?_,fun right hc => (by cases hc),fun v page hv hout => .inl ?_⟩
    · obtain ⟨hv,hlt⟩ := (leftPart_page h).mp hv
      exact ⟨hv,by omega,fun hc => (hc rfl).elim⟩
    · have hin := h.inside v page hv
      exact (leftPart_page h).mpr ⟨hv,by omega⟩

theorem cutVma_tidy (h : Tidy k vma) (ha : 4096 ∣ a) (hb : 4096 ∣ b) (ho : Overlaps vma a b) :
    Tidy k (cutVma vma a b).1 ∧
      ∀ right, (cutVma vma a b).2 = some right → Tidy b right := by
  have hov := overlaps_iff.mp ho
  have hkey := h.key
  by_cases hl : a ≤ vma.startVaddr <;> by_cases hr : b < vma.endVaddr
  · rw [cutVma_left ho hl hr]
    exact ⟨h.rightPart hb (by omega),fun right hc => (by cases hc)⟩
  · rw [cutVma_whole ho hl (not_lt.mp hr)]
    exact ⟨h.emptied.1,fun right hc => (by cases hc)⟩
  · rw [cutVma_inside ho (not_le.mp hl) hr]
    refine ⟨(h.leftPart hb).leftPart ha,fun right hc => ?_⟩
    cases hc
    have hright := h.rightPart hb (by omega)
    exact ⟨le_rfl,hright.framed,hright.first,hright.last,hright.inside⟩
  · rw [cutVma_right ho (not_le.mp hl) (not_lt.mp hr)]
    exact ⟨h.leftPart ha,fun right hc => (by cases hc)⟩

end Cuts

section Unmap

variable {w : View} {first last : ℕ}

def UnmapSafe (areas : VmaRange) (first last : ℕ) : Prop :=
  (∃ (k : ℕ) (vma : VirtMemoryAddr), areas[k]? = some vma ∧ Overlaps vma first last ∧
    vma.startVaddr < pageDown first ∧ pageUp last < vma.endVaddr) → Vacant areas (pageUp last)

theorem pageDown_dvd (va : ℕ) : 4096 ∣ pageDown va := Nat.dvd_mul_left _ _

theorem pageUp_dvd (va : ℕ) : 4096 ∣ pageUp va := Nat.dvd_mul_left _ _

theorem overlaps_of_page (h : Tidy k vma) (hv : vma.pma.pageManager[v]? = some page)
    (hin : pageDown first / 4096 ≤ v ∧ v < pageUp last / 4096) : Overlaps vma first last := by
  have hpage := h.inside v page hv
  have hfirst := h.first
  rw [overlaps_iff]
  unfold pageDown pageUp at hin
  omega

theorem overlaps_of_split (hlt : first < last) (h₁ : vma.startVaddr < pageDown first)
    (h₂ : pageUp last < vma.endVaddr) : Overlaps vma first last := by
  rw [overlaps_iff]
  unfold pageDown at h₁
  unfold pageUp at h₂
  omega

theorem cleared_of_page (h : Tidy k vma) (hv : vma.pma.pageManager[v]? = some page)
    (ho : Overlaps vma first last) (hin : pageDown first / 4096 ≤ v ∧ v < pageUp last / 4096) :
    Cleared vma (pageDown first) (pageUp last) v := by
  have hpage := h.inside v page hv
  refine ⟨overlaps_pages ho,?_,?_⟩
  · rcases max_choice (pageDown first) vma.startVaddr with hm | hm
    · rw [hm]
      exact hin.1
    · rw [hm]
      exact hpage.1
  · rcases min_choice (pageUp last) vma.endVaddr with hm | hm
    · rw [hm]
      exact hin.2
    · rw [hm]
      exact hpage.2

theorem split_vacant (hlt : first < last) (safe : UnmapSafe w.areas first last)
    (hk : w.areas[k]? = some vma) (hs : (cutVma vma (pageDown first)
      (pageUp last)).2 = some right) :
    Vacant w.areas (pageUp last) := by
  obtain ⟨ho,h₁,h₂,-⟩ := cutVma_split hs
  exact safe ⟨k,vma,hk,overlaps_of_split hlt h₁ h₂,h₁,h₂⟩

variable (h : Sound w) (hlt : first < last)

include h hlt

theorem split_only (ready : w.UnmapReady first last) {k' : ℕ} {vma' right' : VirtMemoryAddr}
    (hk : w.areas[k]? = some vma) (hk' : w.areas[k']? = some vma')
    (hs : (cutVma vma (pageDown first) (pageUp last)).2 = some right)
    (hs' : (cutVma vma' (pageDown first) (pageUp last)).2 = some right') : k = k' := by
  have first_page : ∀ {k : ℕ} {vma right : VirtMemoryAddr}, w.areas[k]? = some vma →
      (cutVma vma (pageDown first) (pageUp last)).2 = some right →
      ∃ page, HoldsPage w.areas k (pageDown first / 4096) page := by
    intro k vma right hk hs
    obtain ⟨ho,h₁,h₂,-⟩ := cutVma_split hs
    have hof := overlaps_of_split hlt h₁ h₂
    rcases (unmapReady_iff h.keysBelow).mp ready with heq | hnil | ⟨-,hall⟩
    · exact (hlt.ne heq).elim
    · have hmem := mem_toList.mpr hk
      rw [hnil] at hmem
      cases hmem
    · have hcut := (cutReady_inside ho h₁ h₂).mp (hall k vma hk hof).2.2
      have hpage := hcut.2.1.resident (pageDown first / 4096) le_rfl (by
        change _ < pageUp last / 4096
        unfold pageDown pageUp
        omega)
      obtain ⟨page,hpage⟩ := Option.ne_none_iff_exists'.mp hpage
      exact ⟨page,vma,hk,((leftPart_page (h.tidy k vma hk)).mp hpage).1⟩
  obtain ⟨page,hp⟩ := first_page hk hs
  obtain ⟨page',hp'⟩ := first_page hk' hs'
  exact h.unique k k' _ page page' hp hp'

theorem unmap_tidy (k : ℕ) (vma' : VirtMemoryAddr)
    (hk : (w.unmap first last).areas[k]? = some vma') : Tidy k vma' := by
  have hdown := pageDown_dvd first
  have hup := pageUp_dvd last
  by_cases hkb : k = pageUp last
  · rw [hkb] at hk ⊢
    rcases unmap_limit h.keysBelow hlt.ne hk with hold | ⟨i,vma,hi,hs⟩
    · exact h.tidy _ _ hold
    · exact (cutVma_tidy (h.tidy i vma hi) hdown hup (cutVma_split hs).1).2 vma' hs
  · rw [unmap_getElem? w hlt.ne hkb,Option.map_eq_some_iff] at hk
    obtain ⟨vma,hi,rfl⟩ := hk
    split_ifs with ho
    · exact (cutVma_tidy (h.tidy k vma hi) hdown hup (overlaps_pages ho)).1
    · exact h.tidy k vma hi

def placeAfter (w : View) (first last i v : ℕ) : ℕ :=
  if (tornOff w (pageDown first) (pageUp last) i).isSome ∧ pageUp last / 4096 ≤ v
  then pageUp last else i

theorem unmap_page_origin (hk : HoldsPage (w.unmap first last).areas k v page) :
    ∃ i, HoldsPage w.areas i v page ∧ k = placeAfter w first last i v ∧
      ¬ (pageDown first / 4096 ≤ v ∧ v < pageUp last / 4096) := by
  have hab : pageDown first ≤ pageUp last := by
    unfold pageDown pageUp
    omega
  obtain ⟨vma',hvma',hv⟩ := hk
  unfold placeAfter tornOff
  by_cases hkb : k = pageUp last
  · rw [hkb] at hvma' ⊢
    rcases unmap_limit h.keysBelow hlt.ne hvma' with hold | ⟨i,vma,hi,hs⟩
    · have hin := (h.tidy _ _ hold).inside v page hv
      have hkey : pageUp last / 4096 ≤ vma'.startVaddr / 4096 :=
        Nat.div_le_div_right (h.tidy _ _ hold).key
      exact ⟨pageUp last,⟨vma',hold,hv⟩,(ite_self _).symm,by omega⟩
    · obtain ⟨hvma,hge⟩ :=
        (cutVma_pages (h.tidy i vma hi) (cutVma_split hs).1).move vma' hs v page hv
      refine ⟨i,⟨vma,hi,hvma⟩,?_,by omega⟩
      rw [hi,Option.bind_some,hs,if_pos ⟨rfl,hge⟩]
  · rw [unmap_getElem? w hlt.ne hkb,Option.map_eq_some_iff] at hvma'
    obtain ⟨vma,hi,rfl⟩ := hvma'
    split_ifs at hv with ho
    · obtain ⟨hvma,hout,hlimit⟩ :=
        (cutVma_pages (h.tidy k vma hi) (overlaps_pages ho)).stay v page hv
      refine ⟨k,⟨vma,hi,hvma⟩,?_,hout⟩
      rw [hi,Option.bind_some,if_neg]
      rintro ⟨hsome,hge⟩
      exact absurd (hlimit (Option.isSome_iff_ne_none.mp hsome)) (not_lt.mpr hge)
    · have hout := fun hin => ho (overlaps_of_page (h.tidy k vma hi) hv hin)
      refine ⟨k,⟨vma,hi,hv⟩,?_,hout⟩
      rw [hi,Option.bind_some,if_neg]
      rintro ⟨hsome,-⟩
      obtain ⟨right,hs⟩ := Option.isSome_iff_exists.mp hsome
      obtain ⟨-,h₁,h₂,-⟩ := cutVma_split hs
      exact ho (overlaps_of_split hlt h₁ h₂)

theorem unmap_page_stays (ready : w.UnmapReady first last) (safe : UnmapSafe w.areas first last)
    {i : ℕ} (hi : HoldsPage w.areas i v page)
    (hout : ¬ (pageDown first / 4096 ≤ v ∧ v < pageUp last / 4096)) :
    ∃ k, HoldsPage (w.unmap first last).areas k v page := by
  have hab : pageDown first ≤ pageUp last := by
    unfold pageDown pageUp
    omega
  obtain ⟨vma,hi,hv⟩ := hi
  have tidy := h.tidy i vma hi
  by_cases ho : Overlaps vma first last
  · have hib : i ≠ pageUp last := overlapKeys_lt h.keysBelow i (mem_overlapKeys.mpr ⟨vma,hi,ho⟩)
    rcases (cutVma_pages tidy (overlaps_pages ho)).keep v page hv hout with
      hstay | ⟨right,hs,hright⟩
    · refine ⟨i,_,?_,hstay⟩
      rw [unmap_getElem? w hlt.ne hib,hi,Option.map_some,if_pos ho]
    · refine ⟨pageUp last,right,?_,hright⟩
      refine unmap_limit_split h.keysBelow hlt.ne hi ho hs fun k' vma' hk' _ => ?_
      cases hs' : (cutVma vma' (pageDown first) (pageUp last)).2 with
      | none => exact .inr rfl
      | some right' => exact .inl (split_only h hlt ready hk' hi hs' hs)
  · by_cases hib : i = pageUp last
    · refine ⟨i,vma,?_,hv⟩
      rw [hib,unmap_limit_kept h.keysBelow hlt.ne,← hib,hi]
      intro k' vma' hk' _
      cases hs : (cutVma vma' (pageDown first) (pageUp last)).2 with
      | none => rfl
      | some right =>
        have hnone := split_vacant hlt safe hk' hs vma (hib ▸ hi) v
        rw [hv] at hnone
        cases hnone
    · refine ⟨i,vma,?_,hv⟩
      rw [unmap_getElem? w hlt.ne hib,hi,Option.map_some,if_neg ho]

omit h hlt in
theorem unmap_sound (h : Sound w) (ready : w.UnmapReady first last)
    (safe : UnmapSafe w.areas first last) : Sound (w.unmap first last) := by
  rcases ready with heq | hnil | ⟨hle,hrounds⟩
  · unfold View.unmap
    rw [if_pos heq]
    exact h
  · unfold View.unmap
    rw [overlapKeys_empty hnil,List.foldl_nil,ite_self]
    exact h
  by_cases heq : first = last
  · unfold View.unmap
    rw [if_pos heq]
    exact h
  have hlt : first < last := lt_of_le_of_ne hle heq
  have ready : w.UnmapReady first last := .inr (.inr ⟨hle,hrounds⟩)
  have moved : Sound ⟨(w.unmap first last).areas,(w.unmap first last).pte⟩ := by
    refine h.moved (placeAfter w first last)
      (fun v => ¬ (pageDown first / 4096 ≤ v ∧ v < pageUp last / 4096)) (unmap_tidy h hlt)
      (fun k v page hk => unmap_page_origin h hlt hk)
      (fun i v page hi hout => unmap_page_stays h hlt ready safe hi hout)
      (fun v page hout he => ?_) fun v hv hpte => ?_
    · rcases unmap_pte h.keysBelow hlt.ne v with ⟨⟨k,vma,-,-,-,h₁,h₂⟩,-⟩ | ⟨-,hpte⟩
      · have hl : pageDown first / 4096 ≤ max (pageDown first) vma.startVaddr / 4096 :=
          Nat.div_le_div_right (le_max_left _ _)
        exact (hout ⟨by omega,by omega⟩).elim
      · unfold Entered
        rw [hpte]
        exact he
    · rcases unmap_pte h.keysBelow hlt.ne v with ⟨-,hnone⟩ | ⟨hkept,hsame⟩
      · exact (hpte hnone).elim
      · rw [hsame] at hpte
        refine ⟨hpte,fun hin => ?_⟩
        obtain ⟨k,page,vma,hk,hpage⟩ := h.held v hv hpte
        have tidy := h.tidy k vma hk
        have ho := overlaps_of_page tidy hpage hin
        exact hkept k vma hk ho (cleared_of_page tidy hpage ho hin)
  exact moved

end Unmap

end DuckOs.SoundUnmap
