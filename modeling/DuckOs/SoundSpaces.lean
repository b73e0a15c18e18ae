import DuckOs.UnmapRounds

namespace DuckOs.SoundSpaces
open PermissionFlags KernelMachine PageTableModel PageTableEntries
open PageModel VirtMemoryModel SegmentViews SegmentPush SegmentProtect
open SpaceOperations UnmapRounds
open OrderedMaps

variable {areas : VmaRange} {key v k : ℕ} {page : Page} {pages : BTreeMap Page} {w : View}
  {vma : VirtMemoryAddr} {pte' pte : ℕ → Option ℕ} {flags : MapPermission}

def HoldsPage (areas : VmaRange) (k v : ℕ) (page : Page) : Prop :=
  ∃ vma, areas[k]? = some vma ∧ vma.pma.pageManager[v]? = some page

structure Tidy (k : ℕ) (vma : VirtMemoryAddr) : Prop where
  key : k ≤ vma.startVaddr
  framed : vma.mapType = .framed
  first : 4096 ∣ vma.startVaddr
  last : 4096 ∣ vma.endVaddr
  inside : ∀ (v : ℕ) (page : Page), vma.pma.pageManager[v]? = some page →
    vma.startVaddr / 4096 ≤ v ∧ v < vma.endVaddr / 4096

/-- The entry of page `v` leads to the frame of `page`. -/
def Entered (pte : ℕ → Option ℕ) (v : ℕ) (page : Page) : Prop :=
  ∃ word, pte v = some word ∧ word < 2 ^ 64 ∧ PageTableEntry.ppn word = page.ppn

structure Sound (w : View) : Prop where
  tidy : ∀ (k : ℕ) (vma : VirtMemoryAddr), w.areas[k]? = some vma → Tidy k vma
  unique : ∀ (k k' v : ℕ) (page page' : Page), HoldsPage w.areas k v page →
    HoldsPage w.areas k' v page' → k = k'
  entry : ∀ (k v : ℕ) (page : Page), HoldsPage w.areas k v page → Entered w.pte v page
  held : ∀ v, v < 2 ^ 20 → w.pte v ≠ none → ∃ k page, HoldsPage w.areas k v page

def Vacant (areas : VmaRange) (key : ℕ) : Prop :=
  ∀ vma, areas[key]? = some vma → ∀ v : ℕ, vma.pma.pageManager[v]? = none

theorem Sound.keysBelow (h : Sound w) : KeysBelow w.areas :=
  fun k vma hk => (h.tidy k vma hk).key

theorem holdsPage_insert : HoldsPage (areas.insert key vma) k v page ↔
      (k = key ∧ vma.pma.pageManager[v]? = some page) ∨ (k ≠ key ∧ HoldsPage areas k v page) := by
  unfold HoldsPage
  simp only [getElem?_insert]
  by_cases hk : k = key
  · simp [hk]
  · simp [hk]

theorem holdsPage_replace {vma' : VirtMemoryAddr} (hkey : areas[key]? = some vma)
    (same : vma'.pma.pageManager = vma.pma.pageManager) :
    HoldsPage (areas.insert key vma') k v page ↔ HoldsPage areas k v page := by
  rw [holdsPage_insert,same]
  constructor
  · rintro (⟨rfl,hv⟩ | ⟨-,hk⟩)
    · exact ⟨vma,hkey,hv⟩
    · exact hk
  · intro hk
    by_cases hkk : k = key
    · subst hkk
      obtain ⟨vma₁,hvma₁,hv⟩ := hk
      rw [hkey] at hvma₁
      cases hvma₁
      exact .inl ⟨rfl,hv⟩
    · exact .inr ⟨hkk,hk⟩

theorem Vacant.not_holds (h : Vacant areas key) :
    ¬ HoldsPage areas key v page := by
  rintro ⟨vma,hk,hv⟩
  rw [h vma hk v] at hv
  cases hv

section Rules

variable {areas' : VmaRange}

theorem Sound.moved (h : Sound w) (place : ℕ → ℕ → ℕ) (keep : ℕ → Prop)
    (tidy : ∀ (k : ℕ) (vma : VirtMemoryAddr), areas'[k]? = some vma → Tidy k vma)
    (origin : ∀ (k v : ℕ) (page : Page), HoldsPage areas' k v page →
      ∃ i, HoldsPage w.areas i v page ∧ k = place i v ∧ keep v)
    (stays : ∀ (i v : ℕ) (page : Page), HoldsPage w.areas i v page → keep v →
      ∃ k, HoldsPage areas' k v page)
    (entry : ∀ (v : ℕ) (page : Page), keep v → Entered w.pte v page → Entered pte' v page)
    (held : ∀ v, v < 2 ^ 20 → pte' v ≠ none → w.pte v ≠ none ∧ keep v) : Sound ⟨areas', pte'⟩ := by
  refine ⟨tidy,fun k k' v page page' hk hk' => ?_,fun k v page hk => ?_,fun v hv hpte => ?_⟩
  · obtain ⟨i,hi,rfl,-⟩ := origin k v page hk
    obtain ⟨i',hi',rfl,-⟩ := origin k' v page' hk'
    rw [h.unique i i' v page page' hi hi']
  · obtain ⟨i,hi,-,hkeep⟩ := origin k v page hk
    exact entry v page hkeep (h.entry i v page hi)
  · obtain ⟨hold,hkeep⟩ := held v hv hpte
    obtain ⟨i,page,hi⟩ := h.held v hv hold
    obtain ⟨k,hk⟩ := stays i v page hi hkeep
    exact ⟨k,page,hk⟩

theorem Sound.same_pages (h : Sound w)
    (tidy : ∀ (k : ℕ) (vma : VirtMemoryAddr), areas'[k]? = some vma → Tidy k vma)
    (same : ∀ (k v : ℕ) (page : Page), HoldsPage areas' k v page ↔ HoldsPage w.areas k v page)
    (entry : ∀ (v : ℕ) (page : Page), Entered w.pte v page → Entered pte' v page)
    (held : ∀ v, pte' v ≠ none → w.pte v ≠ none) : Sound ⟨areas', pte'⟩ :=
  h.moved (fun i _ => i) (fun _ => True) tidy
    (fun k v page hk => ⟨k,(same k v page).mp hk,rfl,trivial⟩)
    (fun i v page hi _ => ⟨i,(same i v page).mpr hi⟩)
    (fun v page _ he => entry v page he) fun v _ hpte => ⟨held v hpte,trivial⟩

theorem Sound.add (h : Sound w) (key : ℕ) {flags : PTEFlags}
    (tidy : ∀ (k : ℕ) (vma : VirtMemoryAddr), areas'[k]? = some vma → Tidy k vma)
    (holds : ∀ (k v : ℕ) (page : Page), HoldsPage areas' k v page ↔
      HoldsPage w.areas k v page ∨ (k = key ∧ pages[v]? = some page))
    (fresh : ∀ v : ℕ, pages[v]? ≠ none → w.pte v = none)
    (small : ∀ (v : ℕ) (page : Page), pages[v]? = some page → page.ppn < 2 ^ 44) :
    Sound ⟨areas', overlay w.pte pages flags⟩ := by
  have old : ∀ (k v : ℕ) (page : Page), HoldsPage w.areas k v page → pages[v]? = none := by
    intro k v page hk
    by_contra hc
    obtain ⟨word,hword,-⟩ := h.entry k v page hk
    rw [fresh v hc] at hword
    cases hword
  refine ⟨tidy,fun k k' v page page' hk hk' => ?_,fun k v page hk => ?_,fun v hv hpte => ?_⟩
  · rcases (holds k v page).mp hk with h₁ | ⟨rfl,h₁⟩ <;>
      rcases (holds k' v page').mp hk' with h₂ | ⟨rfl,h₂⟩
    · exact h.unique k k' v page page' h₁ h₂
    · rw [old k v page h₁] at h₂
      cases h₂
    · rw [old k' v page' h₂] at h₁
      cases h₁
    · rfl
  · rcases (holds k v page).mp hk with h₁ | ⟨rfl,h₁⟩
    · obtain ⟨word,hword,hrest⟩ := h.entry k v page h₁
      exact ⟨word,(overlay_none (old k v page h₁)).trans hword,hrest⟩
    · exact ⟨_,overlay_some h₁,new_lt _ _,ppn_new (small v page h₁) _⟩
  · cases hp : pages[v]? with
    | none =>
      have hold : w.pte v ≠ none := fun hc => hpte ((overlay_none hp).trans hc)
      obtain ⟨k,page,hk⟩ := h.held v hv hold
      exact ⟨k,page,(holds k v page).mpr (.inl hk)⟩
    | some page => exact ⟨key,page,(holds key v page).mpr (.inr ⟨rfl,hp⟩)⟩

theorem Sound.put (h : Sound w) (tidy : Tidy vma.startVaddr vma)
    (empty : ∀ v : ℕ, vma.pma.pageManager[v]? = none) (vacant : Vacant w.areas vma.startVaddr) :
    Sound (View.put w vma) := by
  refine h.same_pages (forall_insert h.tidy tidy) (fun k v page => ?_) (fun _ _ he => he)
    fun _ hv => hv
  rw [holdsPage_insert,empty v]
  constructor
  · rintro (⟨-,hc⟩ | ⟨-,hk⟩)
    · cases hc
    · exact hk
  · intro hk
    exact .inr ⟨fun hc => vacant.not_holds (hc ▸ hk),hk⟩

end Rules

section Parts

variable {a b : ℕ}

theorem Tidy.leftPart (h : Tidy k vma) (ha : 4096 ∣ a) : Tidy k (leftPart vma a) := by
  refine ⟨h.key,h.framed,h.first,ha,fun v page hv => ?_⟩
  change (carve _ _ _)[v]? = _ at hv
  rw [getElem?_carve] at hv
  split at hv
  · cases hv
  · obtain ⟨h₁,h₂⟩ := h.inside v page hv
    change vma.startVaddr / 4096 ≤ v ∧ v < a / 4096
    omega

theorem Tidy.rightPart (h : Tidy k vma) (hb : 4096 ∣ b) (hkey : k ≤ b) :
    Tidy k (rightPart vma b) := by
  refine ⟨hkey,h.framed,hb,h.last,fun v page hv => ?_⟩
  change (slice _ _ _)[v]? = _ at hv
  rw [getElem?_slice] at hv
  split at hv
  · rename_i hin
    exact hin
  · cases hv

theorem Tidy.emptied (h : Tidy k vma) :
    Tidy k (emptied vma) ∧ ∀ v : ℕ, (emptied vma).pma.pageManager[v]? = none := by
  have hempty : ∀ v : ℕ, (SegmentViews.emptied vma).pma.pageManager[v]? = none := by
    intro v
    unfold SegmentViews.emptied
    rw [h.framed]
    dsimp only
    rw [getElem?_carve]
    split
    · rfl
    · rename_i hout
      cases hv : vma.pma.pageManager[v]? with
      | none => rfl
      | some page => exact (hout (h.inside v page hv)).elim
  refine ⟨⟨?_,?_,?_,?_,fun v page hv => ?_⟩,hempty⟩
  · unfold SegmentViews.emptied
    split <;> exact h.key
  · unfold SegmentViews.emptied
    split <;> exact h.framed
  · unfold SegmentViews.emptied
    split <;> exact h.first
  · unfold SegmentViews.emptied
    split <;> exact h.last
  · rw [hempty v] at hv
    cases hv

theorem leftPart_page (h : Tidy k vma) :
    (SegmentViews.leftPart vma a).pma.pageManager[v]? = some page ↔
      vma.pma.pageManager[v]? = some page ∧ v < a / 4096 := by
  change (carve _ _ _)[v]? = _ ↔ _
  rw [getElem?_carve]
  constructor
  · intro hv
    split at hv
    · cases hv
    · rename_i hout
      have hin := h.inside v page hv
      exact ⟨hv,by omega⟩
  · rintro ⟨hv,hlt⟩
    rw [if_neg (by omega)]
    exact hv

theorem rightPart_page (h : Tidy k vma) :
    (SegmentViews.rightPart vma b).pma.pageManager[v]? = some page ↔
      vma.pma.pageManager[v]? = some page ∧ b / 4096 ≤ v := by
  change (slice _ _ _)[v]? = _ ↔ _
  rw [getElem?_slice]
  constructor
  · intro hv
    split at hv
    · rename_i hin
      exact ⟨hv,hin.1⟩
    · cases hv
  · rintro ⟨hv,hle⟩
    rw [if_pos ⟨hle,(h.inside v page hv).2⟩]
    exact hv

end Parts

section Splits

variable {i pos : ℕ}

theorem Sound.split (h : Sound w) (hi : w.areas[i]? = some vma) (hpos : 4096 ∣ pos)
    (hstart : vma.startVaddr < pos) (vacant : Vacant w.areas pos) :
    Sound ⟨(w.areas.insert i (leftPart vma pos)).insert pos (rightPart vma pos), w.pte⟩ := by
  have tidy := h.tidy i vma hi
  have hne : i ≠ pos := by
    have hkey := tidy.key
    omega
  have hright : Tidy pos (rightPart vma pos) := by
    have hpart := tidy.rightPart hpos (by have hkey := tidy.key; omega)
    exact ⟨le_rfl,hpart.framed,hpart.first,hpart.last,hpart.inside⟩
  refine h.moved (fun j v => if j = i ∧ pos / 4096 ≤ v then pos else j) (fun _ => True)
    (forall_insert (forall_insert h.tidy (tidy.leftPart hpos)) hright) ?_ ?_ (fun _ _ _ he => he)
    fun _ _ hv => ⟨hv,trivial⟩
  · intro k v page hk
    rcases holdsPage_insert.mp hk with ⟨rfl,hv⟩ | ⟨hkp,hk⟩
    · obtain ⟨hv,hge⟩ := (rightPart_page tidy).mp hv
      exact ⟨i,⟨vma,hi,hv⟩,(if_pos ⟨rfl,hge⟩).symm,trivial⟩
    · rcases holdsPage_insert.mp hk with ⟨rfl,hv⟩ | ⟨hki,hk⟩
      · obtain ⟨hv,hlt⟩ := (leftPart_page tidy).mp hv
        refine ⟨k,⟨vma,hi,hv⟩,(if_neg ?_).symm,trivial⟩
        omega
      · refine ⟨k,hk,(if_neg ?_).symm,trivial⟩
        exact fun hc => hki hc.1
  · intro j v page hj _
    by_cases hji : j = i
    · subst hji
      obtain ⟨vma',hvma',hv⟩ := hj
      rw [hi] at hvma'
      cases hvma'
      by_cases hge : pos / 4096 ≤ v
      · exact ⟨pos,holdsPage_insert.mpr (.inl ⟨rfl,(rightPart_page tidy).mpr ⟨hv,hge⟩⟩)⟩
      · refine ⟨j,holdsPage_insert.mpr (.inr ⟨hne,holdsPage_insert.mpr (.inl ⟨rfl,?_⟩)⟩)⟩
        exact (leftPart_page tidy).mpr ⟨hv,not_le.mp hge⟩
    · have hjp : j ≠ pos := fun hc => vacant.not_holds (hc ▸ hj)
      exact ⟨j,holdsPage_insert.mpr (.inr ⟨hjp,holdsPage_insert.mpr (.inr ⟨hji,hj⟩)⟩)⟩

theorem entered_reflag (he : Entered pte v page) : Entered (reflag pte pages flags) v page := by
  obtain ⟨word,hword,hlt,hppn⟩ := he
  unfold Entered reflag
  split
  · exact ⟨word,hword,hlt,hppn⟩
  · rw [hword]
    exact ⟨_,rfl,replaceFlags_lt hlt _,(ppn_replaceFlags hlt _).trans hppn⟩

theorem reflag_ne_none (hv : reflag pte pages flags v ≠ none) : pte v ≠ none := by
  unfold reflag at hv
  split at hv
  · exact hv
  · intro hc
    rw [hc] at hv
    exact hv rfl

theorem Sound.recolour (h : Sound w) (hi : w.areas[i]? = some vma) (flags : MapPermission)
    (pages : BTreeMap Page) :
    Sound ⟨w.areas.insert i (recolour vma flags), reflag w.pte pages flags⟩ := by
  have tidy := h.tidy i vma hi
  refine h.same_pages (forall_insert h.tidy ?_) (fun k v page => ?_)
    (fun _ _ he => entered_reflag he) fun _ hv => reflag_ne_none hv
  · exact ⟨tidy.key,tidy.framed,tidy.first,tidy.last,tidy.inside⟩
  · exact holdsPage_replace hi rfl

end Splits

end DuckOs.SoundSpaces
