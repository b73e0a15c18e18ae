import DuckOs.PageTableTree
import DuckOs.PageModel

/-! A page of a disk file: eight sectors, each loaded when it is first touched.
What a page holds is what a read would return, whether loaded yet or not; then
loading changes nothing and a write changes its own bytes. -/
namespace DuckOs.DiskPages
open ExecutionRules AddressModel KernelMachine PageTableTree PageModel Function

variable {row : ℕ → UInt8} {i offset : ℕ} {data : List UInt8} {page : Page} {m m' : Machine}
  {info : DiskFileInfo}

def sectorBytes (m : Machine) (info : DiskFileInfo) (idx : ℕ) : List UInt8 :=
  (((m.inodes info.inode).bind fun node =>
    node.read (Page.sectorFileOffset info.pageNumOffset idx) sectorSize).getD []).take sectorSize

def contentOf (m : Machine) (page : Page) (info : DiskFileInfo) (o : ℕ) : UInt8 :=
  if m.dataState page.ppn (o / 512) = .empty then
    writeBytes (m.ram page.ppn) (o / 512 * 512) (sectorBytes m info (o / 512)) o
  else m.ram page.ppn o

def Answers (m : Machine) (info : DiskFileInfo) : Prop :=
  ∃ node, m.inodes info.inode = some node ∧ ∀ offset len, node.read offset len ≠ none

structure OnlyPage (page : Page) (m m' : Machine) : Prop where
  rest : m' = { m with
    ram := update m.ram page.ppn (m'.ram page.ppn)
    dataState := update m.dataState page.ppn (m'.dataState page.ppn) }
  filled : ∀ i, m.dataState page.ppn i ≠ .empty → m'.dataState page.ppn i ≠ .empty

theorem OnlyPage.refl (page : Page) (m : Machine) : OnlyPage page m m := by
  refine ⟨?_,fun _ h => h⟩
  rw [update_eq_self,update_eq_self]

theorem OnlyPage.trans {m₁ m₂ m₃ : Machine} (h : OnlyPage page m₁ m₂) (h' : OnlyPage page m₂ m₃) :
    OnlyPage page m₁ m₃ := by
  refine ⟨?_,fun i hi => h'.filled i (h.filled i hi)⟩
  have h₃ := h'.rest
  rw [h.rest] at h₃
  simpa only [update_self,update_idem] using h₃

theorem OnlyPage.inodes (h : OnlyPage page m m') : m'.inodes = m.inodes := by
  rw [h.rest]

theorem OnlyPage.answers (h : OnlyPage page m m') (ha : Answers m info) : Answers m' info := by
  unfold Answers
  rw [h.inodes]
  exact ha

theorem sectorBytes_length (m : Machine) (info : DiskFileInfo) (idx : ℕ) :
    (sectorBytes m info idx).length ≤ 512 :=
  List.length_take_le _ _

theorem sectorFileOffset_eq (pageNumOffset idx : ℕ) :
    Page.sectorFileOffset pageNumOffset idx = pageNumOffset / 4096 := by
  have hshift : (pageSizeBits + idx * sectorSize) % 64 = 12 := by
    unfold pageSizeBits sectorSize
    omega
  rw [Page.sectorFileOffset,hshift,Nat.shiftRight_eq_div_pow]

theorem writeBytes_congr {row' : ℕ → UInt8} (h : row i = row' i) (offset : ℕ)
    (data : List UInt8) : writeBytes row offset data i = writeBytes row' offset data i := by
  unfold writeBytes
  rw [h]

theorem writeBytes_outside
    (h : ¬ (offset ≤ i ∧ i < offset + data.length)) : writeBytes row offset data i = row i :=
  if_neg h

theorem writeBytes_inside
    (h : offset ≤ i ∧ i < offset + data.length) :
    writeBytes row offset data i = data.getD (i - offset) 0 :=
  if_pos h

def loaded (m : Machine) (page : Page) (info : DiskFileInfo) (idx : ℕ) (state : DataState) :
    Machine :=
  { m with
    ram := update m.ram page.ppn
      (writeBytes (m.ram page.ppn) (idx * 512) (sectorBytes m info idx))
    dataState := update m.dataState page.ppn
      (update (m.dataState page.ppn) idx state) }

theorem readSector_eq (hram : InRam page.ppn) (ha : Answers m info) (idx : ℕ) (state : DataState) :
    Page.readSector page info idx state m = .ok () (loaded m page info idx state) := by
  obtain ⟨node,hnode,hread⟩ := ha
  obtain ⟨bytes,hbytes⟩ := Option.ne_none_iff_exists'.mp
    (hread (Page.sectorFileOffset info.pageNumOffset idx) sectorSize)
  have hfound : unwrap .unwrapNone (m.inodes info.inode) m = .ok node m := by
    rw [hnode]
    rfl
  have hgiven : unwrap .explicit
      (node.read (Page.sectorFileOffset info.pageNumOffset idx) sectorSize) m = .ok bytes m := by
    rw [hbytes]
    rfl
  have hsector : bytes.take sectorSize = sectorBytes m info idx := by
    rw [sectorBytes,hnode,Option.bind_some,hbytes,Option.getD_some]
  unfold Page.readSector
  rw [get_bind,bind_ok hfound,bind_ok (byteArray_frame hram m),bind_ok hgiven,hsector]
  rfl

structure Visited (page : Page) (info : DiskFileInfo) (idx : ℕ) (m m' : Machine) : Prop where
  only : OnlyPage page m m'
  content : contentOf m' page info = contentOf m page info
  here : m'.dataState page.ppn idx ≠ .empty

theorem sector_cases (o idx : ℕ) {n : ℕ} (hn : n ≤ 512) (h : o / 512 ≠ idx) :
    ¬ (idx * 512 ≤ o ∧ o < idx * 512 + n) := by
  omega

theorem loaded_visited {idx : ℕ} {state : DataState}
    (hempty : m.dataState page.ppn idx = .empty) (hstate : state ≠ .empty) :
    Visited page info idx m (loaded m page info idx state) := by
  have hhere : (loaded m page info idx state).dataState page.ppn idx = state := by
    simp only [loaded,update_self]
  have helse : ∀ i, i ≠ idx → (loaded m page info idx state).dataState page.ppn i =
      m.dataState page.ppn i := by
    intro i hi
    simp only [loaded,update_self,update_of_ne hi]
  refine ⟨⟨?_,?_⟩,?_,?_⟩
  · simp only [loaded,update_self]
  · intro i hi
    by_cases heq : i = idx
    · rw [heq,hhere]
      exact hstate
    · rw [helse i heq]
      exact hi
  · funext o
    have hbytes : sectorBytes (loaded m page info idx state) info = sectorBytes m info := rfl
    have hram : (loaded m page info idx state).ram page.ppn =
        writeBytes (m.ram page.ppn) (idx * 512) (sectorBytes m info idx) := by
      simp only [loaded,update_self]
    unfold contentOf
    rw [hbytes,hram]
    by_cases heq : o / 512 = idx
    · rw [heq,hhere,if_neg hstate,hempty,if_pos rfl]
    · have hout : writeBytes (m.ram page.ppn) (idx * 512) (sectorBytes m info idx) o =
          m.ram page.ppn o :=
        writeBytes_outside (sector_cases o idx (sectorBytes_length m info idx) heq)
      rw [helse _ heq,hout,writeBytes_congr hout]
  · rw [hhere]
    exact hstate

theorem loadSector_visited (hram : InRam page.ppn) (ha : Answers m info) (idx : ℕ) :
    Holds (Page.loadSector page info idx) m (fun _ m' => Visited page info idx m m')
      (Never Panic Machine) := by
  unfold Page.loadSector Holds
  rw [get_bind]
  cases hs : m.dataState page.ppn idx with
  | empty =>
    dsimp only
    rw [readSector_eq hram ha]
    exact loaded_visited hs (by decide)
  | sync | dirty => exact ⟨OnlyPage.refl page m,rfl,by rw [hs]; decide⟩

theorem writeSector_visited (hram : InRam page.ppn) (ha : Answers m info) (idx : ℕ) :
    Holds (Page.writeSector page info idx) m (fun _ m' => Visited page info idx m m')
      (Never Panic Machine) := by
  unfold Page.writeSector Holds
  rw [get_bind]
  cases hs : m.dataState page.ppn idx with
  | empty =>
    dsimp only
    rw [readSector_eq hram ha]
    exact loaded_visited hs (by decide)
  | sync =>
    have hstates : ∀ i, update (m.dataState page.ppn) idx .dirty i = .empty ↔
        m.dataState page.ppn i = .empty := by
      intro i
      by_cases heq : i = idx
      · rw [heq,update_self,hs]
        decide
      · rw [update_of_ne heq]
    refine ⟨⟨?_,?_⟩,?_,?_⟩
    · simp only [update_self,update_eq_self]
    · intro i hi
      simp only [update_self]
      exact fun hc => hi ((hstates i).mp hc)
    · funext o
      unfold contentOf
      simp only [update_self,hstates]
      rfl
    · simp only [update_self]
      decide
  | dirty => exact ⟨OnlyPage.refl page m,rfl,by rw [hs]; decide⟩

theorem sectorEnd_eq (offset len : ℕ) (h : offset + len ≤ 4096) :
    Page.sectorEnd offset len = (offset + len + 511) / 512 := by
  have hsum : wrappingAdd (offset + len + (wordSize - 1)) sectorSize = offset + len + 511 := by
    unfold wrappingAdd wordSize sectorSize
    omega
  rw [Page.sectorEnd,hsum]
  rfl

section Visits

variable {step : ℕ → Kernel Unit} (hstep : ∀ (m : Machine) (idx : ℕ), Answers m info →
  Holds (step idx) m (fun _ m' => Visited page info idx m m') (Never Panic Machine))

include hstep

theorem visitSectors : ∀ (n first : ℕ) (m : Machine), Answers m info →
      Holds ((List.range' first n).foldlM (fun _ idx => step idx) ()) m
        (fun _ m' => OnlyPage page m m' ∧ contentOf m' page info = contentOf m page info ∧
          ∀ i, first ≤ i → i < first + n → m'.dataState page.ppn i ≠ .empty)
        (Never Panic Machine) := by
  intro n
  induction n with
  | zero =>
    intro first m _
    exact holds_pure ⟨OnlyPage.refl page m,rfl,fun i h₁ h₂ => absurd h₂ (by omega)⟩
  | succ n ih =>
    intro first m ha
    refine (hstep m first ha).bind ?_
    rintro - m₁ v
    refine (ih (first + 1) m₁ (v.only.answers ha)).imp ?_
    rintro - m₂ ⟨honly,hcontent,hfilled⟩
    refine ⟨v.only.trans honly,hcontent.trans v.content,fun i h₁ h₂ => ?_⟩
    by_cases heq : i = first
    · rw [heq]
      exact honly.filled first v.here
    · exact hfilled i (by omega) (by omega)

theorem visitBytes {len : ℕ} (ha : Answers m info) (h : offset + len ≤ 4096) :
    Holds ((List.range' (offset / 512) (Page.sectorEnd offset len - offset / 512)).foldlM
        (fun _ idx => step idx) ()) m
      (fun _ m' => OnlyPage page m m' ∧ contentOf m' page info = contentOf m page info ∧
        ∀ o, offset ≤ o → o < offset + len → m'.dataState page.ppn (o / 512) ≠ .empty)
      (Never Panic Machine) := by
  have hend := sectorEnd_eq offset len h
  refine (visitSectors hstep _ _ m ha).imp ?_
  rintro - m' ⟨honly,hcontent,hfilled⟩
  exact ⟨honly,hcontent,fun o _ _ => hfilled _ (by omega) (by omega)⟩

end Visits

theorem load_page (hram : InRam page.ppn) (hdisk : page.diskFile = some info)
    (ha : Answers m info) :
    Holds (Page.load page) m
      (fun _ m' => OnlyPage page m m' ∧ contentOf m' page info = contentOf m page info)
      (Never Panic Machine) := by
  unfold Page.load
  rw [hdisk]
  exact (visitSectors (fun m idx ha => loadSector_visited hram ha idx) dataSize 0 m ha).imp
    fun _ _ h => ⟨h.1,h.2.1⟩

theorem read_page (hram : InRam page.ppn) (hdisk : page.diskFile = some info)
    (ha : Answers m info) (hoffset : offset < 4096) (bufLen : ℕ) :
    Holds (Page.read page offset bufLen) m
      (fun r m' => OnlyPage page m m' ∧ contentOf m' page info = contentOf m page info ∧
        r = (List.range (min bufLen (4096 - offset))).map fun i =>
          contentOf m page info (offset + i))
      (Never Panic Machine) := by
  unfold Page.read Page.readSectors
  rw [hdisk]
  refine holds_assertThat (fun _ => ?_) fun h => absurd hoffset (of_decide_eq_false h)
  simp only [pageSize]
  generalize hlen : min bufLen (4096 - offset) = len
  refine (visitBytes (fun m idx ha => loadSector_visited hram ha idx) ha (by omega)).bind ?_
  rintro - m₁ ⟨honly,hcontent,hfilled⟩
  refine holds_bind_ok (byteArray_frame hram m₁) ?_
  refine ⟨honly,hcontent,List.map_congr_left fun i hi => ?_⟩
  rw [List.mem_range] at hi
  rw [← hcontent,contentOf,if_neg (hfilled _ (by omega) (by omega))]

theorem setRow_content (info : DiskFileInfo)
    (hfilled : ∀ o, offset ≤ o ∧ o < offset + data.length →
      m.dataState page.ppn (o / 512) ≠ .empty) :
    OnlyPage page m (setRow m page.ppn (writeBytes (m.ram page.ppn) offset data)) ∧
      contentOf (setRow m page.ppn (writeBytes (m.ram page.ppn) offset data)) page info = fun o =>
        if offset ≤ o ∧ o < offset + data.length then data.getD (o - offset) 0
        else contentOf m page info o := by
  have hrow : (setRow m page.ppn (writeBytes (m.ram page.ppn) offset data)).ram page.ppn =
      writeBytes (m.ram page.ppn) offset data := update_self ..
  have hstates : (setRow m page.ppn (writeBytes (m.ram page.ppn) offset data)).dataState =
      m.dataState := rfl
  refine ⟨⟨?_,fun _ h => h⟩,?_⟩
  · rw [hrow,hstates,update_eq_self]
    rfl
  · funext o
    by_cases ho : offset ≤ o ∧ o < offset + data.length
    · rw [if_pos ho,contentOf,hstates,if_neg (hfilled o ho),hrow,writeBytes_inside ho]
    · have hout : writeBytes (m.ram page.ppn) offset data o = m.ram page.ppn o :=
        writeBytes_outside ho
      rw [if_neg ho,contentOf,contentOf,hstates,hrow,hout,writeBytes_congr hout]
      rfl

theorem write_page (hram : InRam page.ppn) (hdisk : page.diskFile = some info)
    (ha : Answers m info) (hoffset : offset < 4096) (buf : List UInt8) :
    Holds (Page.write page offset buf) m
      (fun _ m' => OnlyPage page m m' ∧ contentOf m' page info = fun o =>
        if offset ≤ o ∧ o < offset + min buf.length (4096 - offset) then buf.getD (o - offset) 0
        else contentOf m page info o)
      (Never Panic Machine) := by
  unfold Page.write Page.writeSectors
  rw [hdisk]
  refine holds_assertThat (fun _ => ?_) fun h => absurd hoffset (of_decide_eq_false h)
  simp only [pageSize]
  generalize hlen : min buf.length (4096 - offset) = len
  refine (visitBytes (fun m idx ha => writeSector_visited hram ha idx) ha (by omega)).bind ?_
  rintro - m₁ ⟨honly,hcontent,hfilled⟩
  refine holds_bind_ok (byteArray_frame hram m₁) ?_
  have htake : (buf.take len).length = len := by
    rw [List.length_take]
    omega
  have hinside : ∀ o, offset ≤ o ∧ o < offset + (buf.take len).length →
      m₁.dataState page.ppn (o / 512) ≠ .empty :=
    fun o ho => hfilled _ (by omega) (by omega)
  obtain ⟨honly₂,hcontent₂⟩ := setRow_content info hinside
  refine ⟨honly.trans honly₂,hcontent₂.trans ?_⟩
  funext o
  rw [htake,hcontent]
  split_ifs with ho
  · rw [List.getD_eq_getElem?_getD,List.getD_eq_getElem?_getD,List.getElem?_take,
      if_pos (by omega)]
  · rfl

end DuckOs.DiskPages
