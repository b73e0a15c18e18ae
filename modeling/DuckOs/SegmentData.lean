import DuckOs.OpenFiles
import DuckOs.SegmentPush

namespace DuckOs.SegmentData
open ExecutionRules AddressModel KernelMachine PageTableTree PageModel VirtMemoryModel DiskPages
open OpenFiles SegmentPush OrderedMaps Function

variable {vma : VirtMemoryAddr} {m : Machine} {data : List UInt8} {last start o v n : ℕ}

/-- The pages of the segment in front of the page number `last`, where it ends. -/
structure Resident (vma : VirtMemoryAddr) (last : ℕ) : Prop where
  pages : ∀ v : ℕ, vma.startVaddr / 4096 ≤ v → v < last → checkUserVa (v * 4096) = true ∧
    ∃ page, vma.pma.pageManager[v]? = some page ∧ InRam page.ppn
  plain : Plain vma.pma.pageManager

/-- From the offset `o` of the page `v` on there is room for what follows `start`. -/
structure Place (vma : VirtMemoryAddr) (last len start o v : ℕ) : Prop where
  first : vma.startVaddr / 4096 ≤ v
  before : v < last
  start_le : start ≤ len
  inPage : o < pageSize
  room : v * 4096 + o + (len - start) ≤ last * 4096

theorem Place.next {len : ℕ} (p : Place vma last len start o v)
    (hmore : ¬ len ≤ start + (pageSize - o)) :
    Place vma last len (start + (pageSize - o)) 0 (v + 1) := by
  obtain ⟨hfirst,hlast,hstart,ho,hroom⟩ := p
  have hsize : pageSize = 4096 := rfl
  exact ⟨by omega,by omega,by omega,by decide,by rw [Nat.add_zero]; omega⟩

def byteOf (vma : VirtMemoryAddr) (m : Machine) (x : ℕ) : UInt8 :=
  (rowsOf vma.pma.pageManager m (x / 4096)).elim 0 fun row => row (x % 4096)

theorem byteOf_page {page : Page} (hpage : vma.pma.pageManager[v]? = some page) (hn : n < 4096) :
    byteOf vma m (v * 4096 + n) = m.ram page.ppn n := by
  have hv : (v * 4096 + n) / 4096 = v := by omega
  have hmod : (v * 4096 + n) % 4096 = n := by omega
  rw [byteOf,hv,hmod,rowsOf,hpage]
  rfl

theorem sliceOf_chunk (hs : start ≤ data.length) (ho : o < pageSize) :
    VirtMemoryAddr.sliceOf data start (min data.length (start + pageSize - o)) m =
      .ok ((data.drop start).take (pageSize - o)) m := by
  have hle : start ≤ min data.length (start + pageSize - o) ∧
      min data.length (start + pageSize - o) ≤ data.length := by omega
  have hlen : min data.length (start + pageSize - o) - start =
      min (pageSize - o) (data.drop start).length := by
    rw [List.length_drop]
    omega
  unfold VirtMemoryAddr.sliceOf
  rw [if_pos hle,List.drop_take,hlen,← List.take_eq_take_min]
  rfl

namespace Resident

variable (h : Resident vma last) (hfirst : vma.startVaddr / 4096 ≤ v) (hlast : v < last)
include h hfirst

theorem wrappingAdd_page (hnext : v + 1 < last) :
    wrappingAdd (v * 4096) pageSize = (v + 1) * 4096 := by
  have hlt := checkUserVa_lt (h.pages (v + 1) (Nat.le_succ_of_le hfirst) hnext).1
  unfold wrappingAdd wordSize pageSize
  omega

include hlast

theorem virtToVpn_page (m : Machine) : (virtToVpn (v * 4096) : Kernel ℕ) m = .ok v m := by
  rw [virtToVpn_eq,if_pos (h.pages v hfirst hlast).1,Nat.mul_div_cancel _ (by decide)]

theorem writeDataToPage_bytes (ho : o < 4096) (hlen : data.length + o ≤ 4096) :
    Holds (vma.pma.writeDataToPage v data o) m
      (fun _ m' => byteOf vma m' = writeBytes (byteOf vma m) (v * 4096 + o) data)
      (Never Panic Machine) := by
  obtain ⟨-,page,hpage,hram⟩ := h.pages v hfirst hlast
  have hall : data.take (min data.length (pageSize - o)) = data :=
    List.take_of_length_le (by unfold pageSize; omega)
  unfold PhysMemoryAddr.writeDataToPage
  refine holds_assertThat (fun _ => ?_) fun hc => of_decide_eq_false hc hlen
  rw [hpage]
  refine (write_rows h.plain hpage hram o data).mono ?_ fun _ _ hc => hc ho
  rintro - m' ⟨-,hrows⟩
  rw [hall] at hrows
  funext x
  by_cases hx : x / 4096 = v
  · rw [byteOf,hrows,hx,update_self,writeBytes,byteOf,hx,rowsOf,hpage]
    have hiff : (o ≤ x % 4096 ∧ x % 4096 < o + data.length) ↔
        v * 4096 + o ≤ x ∧ x < v * 4096 + o + data.length := by omega
    have hsub : x % 4096 - o = x - (v * 4096 + o) := by omega
    simp only [Option.map_some,Option.elim_some,writeBytes,hiff,hsub]
  · rw [byteOf,hrows,update_of_ne hx,writeBytes_outside (by omega)]
    rfl

theorem readDataFromPage_bytes (ho : o < 4096) (hlen : n + o ≤ 4096) :
    Holds (vma.pma.readDataFromPage v n o) m
      (fun r m' => r = shown (byteOf vma m) (v * 4096 + o) n ∧ m = m') (Never Panic Machine) := by
  obtain ⟨-,page,hpage,hram⟩ := h.pages v hfirst hlast
  have hmin : min n (pageSize - o) = n := by
    unfold pageSize
    omega
  unfold PhysMemoryAddr.readDataFromPage Page.read Page.readSectors
  refine holds_assertThat (fun _ => ?_) fun hc => of_decide_eq_false hc hlen
  rw [hpage]
  refine holds_bind_ok rfl (holds_assertThat (fun _ => ?_) fun hc => of_decide_eq_false hc ho)
  rw [h.plain.plain v page hpage,hmin]
  refine holds_bind_ok rfl (holds_bind_ok (byteArray_frame hram m) (holds_get ?_))
  refine holds_pure ⟨?_,rfl⟩
  apply List.map_congr_left
  intro i hi
  rw [Nat.add_assoc,byteOf_page hpage]
  have := List.mem_range.mp hi
  omega

omit hfirst hlast

/-- The loop writes the data from `start` on, beginning at the offset `o` of the page `v`. -/
theorem writeDataLoop_bytes (fuel start o v : ℕ) (place : Place vma last data.length start o v)
    (hfuel : data.length < start + fuel) :
    Holds (vma.writeDataLoop data fuel start o (v * 4096)) m
      (fun _ m' => byteOf vma m' = writeBytes (byteOf vma m) (v * 4096 + o) (data.drop start))
      (Never Panic Machine) := by
  induction fuel generalizing start o v m with
  | zero => exact absurd place.start_le (by omega)
  | succ fuel ih =>
    have next := place.next
    obtain ⟨hfirst,hlast,hs,ho,-⟩ := place
    have hsize : pageSize = 4096 := rfl
    have hchunk : ((data.drop start).take (pageSize - o)).length + o ≤ pageSize := by
      rw [List.length_take]
      omega
    simp only [VirtMemoryAddr.writeDataLoop]
    refine holds_bind_ok (h.virtToVpn_page hfirst hlast m) (holds_bind_ok (sliceOf_chunk hs ho) ?_)
    refine (h.writeDataToPage_bytes hfirst hlast ho hchunk).bind ?_
    rintro - m₁ hbytes
    by_cases hend : data.length ≤ start + (pageSize - o)
    · rw [List.take_of_length_le (by rw [List.length_drop]; omega)] at hbytes
      rw [if_pos hend]
      exact holds_pure hbytes
    · have hsplit := writeBytes_split (byteOf vma m) (v * 4096 + o) (pageSize - o) (data.drop start)
        (by rw [List.length_drop]; omega)
      have hpos : v * 4096 + o + (pageSize - o) = (v + 1) * 4096 + 0 := by omega
      rw [if_neg hend,h.wrappingAdd_page hfirst (next hend).before]
      refine Holds.imp (ih _ 0 (v + 1) (next hend) (by omega)) ?_
      intro _ m₂ hrest
      rw [hrest,hbytes,← hsplit,List.drop_drop,hpos]

/-- The loop fills the buffer from `start` on and leaves the memory alone. -/
theorem readDataLoop_bytes (fuel start o v : ℕ) (place : Place vma last data.length start o v)
    (hfuel : data.length < start + fuel) :
    Holds (vma.readDataLoop fuel data start o (v * 4096)) m
      (fun r m' => r = data.take start ++ shown (byteOf vma m) (v * 4096 + o)
        (data.length - start) ∧ m = m') (Never Panic Machine) := by
  induction fuel generalizing start o v data with
  | zero => exact absurd place.start_le (by omega)
  | succ fuel ih =>
    have next := place.next
    obtain ⟨hfirst,hlast,hs,ho,-⟩ := place
    have hsize : pageSize = 4096 := rfl
    have hchunk : ((data.drop start).take (pageSize - o)).length =
        min (pageSize - o) (data.length - start) := by
      rw [List.length_take,List.length_drop]
    generalize hn : min (pageSize - o) (data.length - start) = n at hchunk
    simp only [VirtMemoryAddr.readDataLoop]
    refine holds_bind_ok (h.virtToVpn_page hfirst hlast m) (holds_bind_ok (sliceOf_chunk hs ho) ?_)
    rw [hchunk]
    refine (h.readDataFromPage_bytes hfirst hlast ho (by omega)).bind ?_
    rintro _ _ ⟨rfl,rfl⟩
    have hlen : (data.take start ++ shown (byteOf vma m) (v * 4096 + o) n ++
        data.drop (start + n)).length = data.length := by
      simp
      omega
    rw [length_shown,hlen]
    by_cases hend : data.length ≤ start + (pageSize - o)
    · obtain rfl : n = data.length - start := by omega
      rw [if_pos hend,List.drop_of_length_le (by omega),List.append_nil]
      exact holds_pure ⟨rfl,rfl⟩
    · obtain rfl : n = pageSize - o := by omega
      rw [if_neg hend,h.wrappingAdd_page hfirst (next hend).before]
      refine Holds.imp (ih _ 0 (v + 1) (hlen.symm ▸ next hend) (by omega)) ?_
      rintro _ _ ⟨rfl,rfl⟩
      have hpos : (v + 1) * 4096 + 0 = v * 4096 + o + (pageSize - o) := by omega
      have hrest : data.length - start =
          pageSize - o + (data.length - (start + (pageSize - o))) := by omega
      refine ⟨?_,rfl⟩
      rw [hlen,hpos,List.take_left' (by simp; omega),List.append_assoc,shown_append,← hrest]

end Resident

theorem shown_writeBytes (view : ℕ → UInt8) (pos : ℕ) (data : List UInt8) :
    shown (writeBytes view pos data) pos data.length = data := by
  refine List.ext_getElem (length_shown _ _ _) fun i hi hi' => ?_
  simp [shown,writeBytes,hi']

/-- Data written into a resident segment are read back, and the bytes around them stay. -/
theorem data_read_back (vma : VirtMemoryAddr) (last : ℕ) (m : Machine) (h : Resident vma last)
    (first offset : ℕ) (hfirst : vma.startVaddr / 4096 ≤ first) (hlast : first < last)
    (hoffset : offset < pageSize) (data buf : List UInt8)
    (hfit : offset + data.length ≤ (last - first) * pageSize) (hbuf : buf.length = data.length) :
    ∃ m', vma.writeDataToPage (first * pageSize) data offset m = .ok () m' ∧
      vma.readDataFromPage (first * pageSize) buf offset m' = .ok data m' ∧
      ∀ x, ¬ (first * pageSize + offset ≤ x ∧ x < first * pageSize + offset + data.length) →
        byteOf vma m' x = byteOf vma m x := by
  unfold pageSize at *
  have place : Place vma last data.length 0 offset first :=
    ⟨hfirst,hlast,Nat.zero_le _,hoffset,by omega⟩
  obtain ⟨_,m',hwrite,hbytes⟩ :=
    (h.writeDataLoop_bytes (m := m) (data.length + 2) 0 offset first place (by omega)).returns
  obtain ⟨_,_,hread,rfl,rfl⟩ := (h.readDataLoop_bytes (m := m') (buf.length + 2) 0 offset first
    (hbuf.symm ▸ place) (by omega)).returns
  rw [List.drop_zero] at hbytes
  refine ⟨m',hwrite,hread.trans ?_,fun x hx => ?_⟩
  · rw [List.take_zero,List.nil_append,Nat.sub_zero,hbuf,hbytes,shown_writeBytes]
  · rw [hbytes,writeBytes_outside hx]

/-- Two pages, one behind the other. -/
def twoPages : VirtMemoryAddr :=
  ⟨⟨((∅ : BTreeMap Page).insert 16 ⟨0x80200, 0, none⟩).insert 17 ⟨0x80201, 0, none⟩, none⟩,
    0x10000, 0x12000, 0, .mmap, .framed, none⟩

theorem twoPages_resident : Resident twoPages 18 := by
  have hall : ∀ (v : ℕ) (page : Page), twoPages.pma.pageManager[v]? = some page →
      page.ppn = v + 0x801f0 ∧ page.diskFile = none :=
    forall_insert (forall_insert nofun ⟨rfl,rfl⟩) ⟨rfl,rfl⟩
  refine ⟨fun v hfirst hlast => ?_,fun v v' page page' hv hv' heq => ?_,
    fun v page hv => (hall v page hv).2⟩
  · obtain rfl | rfl : v = 16 ∨ v = 17 := by
      change 16 ≤ v at hfirst
      omega
    · exact ⟨by decide,_,rfl,by decide,by decide⟩
    · exact ⟨by decide,_,rfl,by decide,by decide⟩
  · have := (hall v page hv).1
    have := (hall v' page' hv').1
    omega

/-- Three bytes over the border of the pages. -/
theorem border_read_back : ∃ m', twoPages.writeDataToPage (16 * pageSize) [1, 2, 3] 4095
      (BootMachine.bootMachine 64) = .ok () m' ∧
    twoPages.readDataFromPage (16 * pageSize) [0, 0, 0] 4095 m' = .ok [1, 2, 3] m' := by
  obtain ⟨m',hwrite,hread,-⟩ := data_read_back twoPages 18 (BootMachine.bootMachine 64)
    twoPages_resident 16 4095 (by decide) (by decide) (by decide) [1,2,3] [0,0,0] (by decide) rfl
  exact ⟨m',hwrite,hread⟩

end DuckOs.SegmentData
