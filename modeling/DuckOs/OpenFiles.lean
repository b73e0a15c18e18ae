import DuckOs.PageCaches
import DuckOs.Ext4FileModel

namespace DuckOs.OpenFiles
open ExecutionRules AddressModel PermissionFlags KernelMachine PageTableTree PageModel DiskPages
  Function
open PageCaches Ext4FileModel

variable {m₀ m m' : Machine} {c inode p size : ℕ} {view : ℕ → UInt8} {page : Page}

theorem writeBytes_nil (view : ℕ → UInt8) (pos : ℕ) : writeBytes view pos [] = view := by
  funext x
  refine writeBytes_outside ?_
  rw [List.length_nil]
  omega

theorem writeBytes_split (view : ℕ → UInt8) (pos n : ℕ) (data : List UInt8)
    (hn : n ≤ data.length) :
    writeBytes (writeBytes view pos (data.take n)) (pos + n) (data.drop n) =
      writeBytes view pos data := by
  funext x
  have htake : (data.take n).length = n := by
    rw [List.length_take]
    omega
  unfold writeBytes
  rw [htake,List.length_drop]
  by_cases h₁ : pos + n ≤ x ∧ x < pos + n + (data.length - n)
  · rw [if_pos h₁,if_pos (by omega),List.getD_eq_getElem?_getD,List.getElem?_drop,
      List.getD_eq_getElem?_getD]
    congr 2
    omega
  · rw [if_neg h₁]
    by_cases h₂ : pos ≤ x ∧ x < pos + n
    · rw [if_pos h₂,if_pos (by omega),List.getD_eq_getElem?_getD,List.getD_eq_getElem?_getD,
        List.getElem?_take,if_pos (by omega)]
    · rw [if_neg h₂,if_neg (by omega)]

def shown (view : ℕ → UInt8) (pos n : ℕ) : List UInt8 :=
  (List.range n).map fun i => view (pos + i)

@[simp] theorem length_shown (view : ℕ → UInt8) (pos n : ℕ) : (shown view pos n).length = n := by
  simp [shown]

theorem shown_append (view : ℕ → UInt8) (pos a b : ℕ) :
    shown view pos a ++ shown view (pos + a) b = shown view pos (a + b) := by
  simp [shown,List.range_add,Nat.add_assoc]

section Files

def Sized (m : Machine) (inode size : ℕ) : Prop :=
  ∃ node, m.inodes inode = some node ∧ node.size = size ∧ ∀ offset len, node.read offset len ≠ none

def supply (m : Machine) (c : ℕ) : ℕ := m.frameAllocator.free.length + (m.pageCaches c).size

structure FileAt (m₀ : Machine) (c inode : ℕ) (view : ℕ → UInt8) (size : ℕ) (m : Machine) :
    Prop where
  inv : CacheInv m
  shows : ShowsFile m c inode view
  sized : Sized m inode size
  step : CacheStep c m₀ m
  total : supply m c = supply m₀ c
  others : ∀ i, i ≠ inode → m.inodes i = m₀.inodes i

def Exhausted (m₀ : Machine) (c : ℕ) (e : Panic) (m : Machine) : Prop :=
  e = .outOfFrames ∧ m.frameAllocator.free = [] ∧ (m.pageCaches c).size = supply m₀ c

theorem FileAt.congr {view' : ℕ → UInt8} (h : FileAt m₀ c inode view size m)
    (hv : ∀ x, view x = view' x) : FileAt m₀ c inode view' size m :=
  { h with shows := h.shows.congr hv }

theorem Sized.answers (h : Sized m inode size) (p : ℕ) : Answers m ⟨inode, p⟩ := by
  obtain ⟨node,hnode,-,hread⟩ := h
  exact ⟨node,hnode,hread⟩

theorem iSize_node {node : Inode} (h : m.inodes inode = some node) :
    iSize inode m = .ok node.size m := by
  unfold iSize
  rw [get_bind,h]
  rfl

theorem iSize_eq (h : Sized m inode size) : iSize inode m = .ok size m := by
  obtain ⟨node,hnode,rfl,-⟩ := h
  exact iSize_node hnode

theorem pageFor_borrowed (h : FileAt m₀ c inode view size m) (fileOffset : ℕ) :
    Holds (Ext4MemFile.pageFor c inode fileOffset) m
      (fun page m' => FileAt m₀ c inode view size m' ∧
        Borrowed c inode (fileOffset / 4096) page view m')
      (Exhausted m₀ c) := by
  cases hfound : (m.pageCaches c)[fileOffset / 4096]? with
  | some page =>
    have hborrowed := cloned_borrowed h.inv h.shows hfound
    have hstep : CacheStep c m (cloned m page) :=
      ⟨fun _ => rfl,fun _ _ => rfl,fun _ _ _ _ _ => ⟨rfl,rfl⟩⟩
    refine holds_ok (bind_ok (findPageAndCreate_found hfound)) ⟨?_,hborrowed⟩
    exact ⟨hborrowed.inv,hborrowed.shows,h.sized,h.step.trans hstep,h.total,h.others⟩
  | none =>
    cases halloc : m.frameAllocator.alloc with
    | none =>
      refine holds_error (bind_error (findPageAndCreate_exhausted hfound halloc)) ?_
      have hfree := alloc_eq_none halloc
      refine ⟨rfl,hfree,?_⟩
      rw [← h.total,supply,hfree,List.length_nil,Nat.zero_add]
    | some xr =>
      obtain ⟨x,rest⟩ := xr
      have hfree := alloc_eq_some halloc
      have hram : InRam x := h.inv.freeInRam x (alloc_mem halloc)
      obtain ⟨hborrowed,hstep⟩ := created_borrowed h.inv h.shows hfound halloc
      refine holds_ok (bind_ok (findPageAndCreate_created hfound halloc hram)) ⟨?_,hborrowed⟩
      refine ⟨hborrowed.inv,hborrowed.shows,h.sized,h.step.trans hstep,?_,h.others⟩
      have hsize : ((created m c inode (fileOffset / 4096) x rest).pageCaches c).size =
          (m.pageCaches c).size + 1 := by
        have hmem : (m.pageCaches c).contains (fileOffset / 4096) = false := by
          rw [Std.ExtTreeMap.contains_eq_isSome_getElem?,hfound]
          rfl
        change (update m.pageCaches c _ c).size = _
        rw [update_self,Std.ExtTreeMap.size_insert,hmem]
        rfl
      have htotal := h.total
      rw [supply,hfree,List.length_cons] at htotal
      change rest.free.length + _ = _
      omega

theorem FileAt.used (h : FileAt m₀ c inode view size m) (b : Borrowed c inode p page view m)
    (only : OnlyPage page m m') :
    FileAt m₀ c inode (usedView m' inode p page view) size m' ∧
      Borrowed c inode p page (usedView m' inode p page view) m' := by
  obtain ⟨hborrowed,hstep⟩ := b.used only
  refine ⟨⟨hborrowed.inv,hborrowed.shows,?_,h.step.trans hstep,?_,fun i hi => ?_⟩,hborrowed⟩
  · unfold Sized
    rw [only.inodes]
    exact h.sized
  · rw [← h.total,supply,supply,only.rest]
  · rw [only.inodes]
    exact h.others i hi

theorem FileAt.returned (h : FileAt m₀ c inode view size m)
    (b : Borrowed c inode p page view m) :
    Holds (arcDrop page) m (fun _ m' => FileAt m₀ c inode view size m') (Exhausted m₀ c) := by
  have hstep : CacheStep c m (released m page) :=
    ⟨fun _ => rfl,fun _ _ => rfl,fun _ _ _ _ _ => ⟨rfl,rfl⟩⟩
  exact holds_ok (arcDrop_released b.count)
    ⟨b.returned,⟨h.shows.cached,h.shows.absent⟩,h.sized,h.step.trans hstep,h.total,h.others⟩

def raised (m : Machine) (inode limit : ℕ) : Machine :=
  { m with
    inodes := update m.inodes inode
      ((m.inodes inode).map fun node => { node with size := max node.size limit }) }

theorem raised_step (m : Machine) (c inode limit : ℕ) : CacheStep c m (raised m inode limit) := by
  refine ⟨fun i => ?_,fun _ _ => rfl,fun _ _ _ _ _ => ⟨rfl,rfl⟩⟩
  unfold raised
  dsimp only
  by_cases hi : i = inode
  · rw [hi,update_self,Option.map_map]
    rfl
  · rw [update_of_ne hi]

theorem raised_borrowed (b : Borrowed c inode p page view m) (limit : ℕ) :
    Borrowed c inode p page view (raised m inode limit) := by
  have hreads := (raised_step m c inode limit).reads
  refine ⟨⟨b.inv.freeInRam,b.inv.live,b.inv.apart⟩,⟨fun q pg hq => ?_,fun q hq o ho => ?_⟩,
    b.found,b.count⟩
  · refine ⟨(b.shows.cached q pg hq).1,fun o ho => ?_⟩
    rw [contentOf_congr hreads rfl rfl]
    exact (b.shows.cached q pg hq).2 o ho
  · rw [diskByte_congr hreads]
    exact b.shows.absent q hq o ho

theorem FileAt.raised (h : FileAt m₀ c inode view size m)
    (b : Borrowed c inode p page view m) (limit : ℕ) :
    FileAt m₀ c inode view (max size limit) (raised m inode limit) := by
  have hborrowed := raised_borrowed b limit
  refine ⟨hborrowed.inv,hborrowed.shows,?_,h.step.trans (raised_step m c inode limit),h.total,
    fun i hi => ?_⟩
  · obtain ⟨node,hnode,rfl,hread⟩ := h.sized
    refine ⟨{ node with size := max node.size limit },?_,rfl,hread⟩
    unfold OpenFiles.raised
    dsimp only
    rw [update_self,hnode]
    rfl
  · exact (update_of_ne hi _ _).trans (h.others i hi)

end Files

section Loops

theorem usedView_read (b : Borrowed c inode p page view m)
    (h : contentOf m' page ⟨inode, p⟩ = contentOf m page ⟨inode, p⟩) (x : ℕ) :
    usedView m' inode p page view x = view x := by
  unfold usedView
  split_ifs with hx
  · rw [h,(b.shows.cached p page b.found).2 _ (Nat.mod_lt _ (by decide)),← hx]
    congr 1
    omega
  · rfl

theorem usedView_written {pos : ℕ} {buf : List UInt8}
    (b : Borrowed c inode (pos / 4096) page view m) (hfits : buf.length ≤ 4096 - pos % 4096)
    (h : contentOf m' page ⟨inode, pos / 4096⟩ = fun o =>
      if pos % 4096 ≤ o ∧ o < pos % 4096 + min buf.length (4096 - pos % 4096) then
        buf.getD (o - pos % 4096) 0
      else contentOf m page ⟨inode, pos / 4096⟩ o) (x : ℕ) :
    usedView m' inode (pos / 4096) page view x = writeBytes view pos buf x := by
  unfold usedView writeBytes
  rw [h]
  split
  · rename_i hx
    have hcontent := (b.shows.cached _ page b.found).2 (x % 4096) (Nat.mod_lt _ (by decide))
    have hback : pos / 4096 * 4096 + x % 4096 = x := by omega
    rw [hback] at hcontent
    dsimp only
    by_cases hin : pos ≤ x ∧ x < pos + buf.length
    · rw [if_pos hin,if_pos (by omega)]
      congr 1
      omega
    · rw [if_neg hin,if_neg (by omega),hcontent]
  · rename_i hx
    rw [if_neg (by omega)]

/-- One round of a reading loop: the page is taken from the cache, read and let go. -/
theorem round_bind {α : Type} {Q : α → Machine → Prop} {f : List UInt8 → Kernel α} {o : ℕ}
    (h : FileAt m₀ c inode view size m) (fileOffset n : ℕ) (ho : o = fileOffset % 4096)
    (hf : ∀ m', FileAt m₀ c inode view size m' →
      Holds (f (shown view fileOffset (min n (4096 - o)))) m' Q (Exhausted m₀ c)) :
    Holds (do
      let page ← Ext4MemFile.pageFor c inode fileOffset
      let bytes ← Page.read page o n
      arcDrop page
      f bytes) m Q (Exhausted m₀ c) := by
  refine (pageFor_borrowed h fileOffset).bind ?_
  rintro page m₁ ⟨h₁,hborrowed⟩
  have hlive := hborrowed.inv.live _ _ _ hborrowed.found
  obtain ⟨hdisk,hpage⟩ := hborrowed.shows.cached _ _ hborrowed.found
  refine (read_page hlive.1 hdisk (h₁.sized.answers _) (by omega : o < 4096) n).weaken.bind ?_
  rintro bytes m₂ ⟨honly,hcontent,hbytes⟩
  obtain ⟨h₂,hborrowed₂⟩ := h₁.used hborrowed honly
  refine (h₂.returned hborrowed₂).bind ?_
  rintro - m₃ h₃
  have hround : bytes = shown view fileOffset (min n (4096 - o)) := by
    rw [hbytes]
    refine List.map_congr_left fun i hi => ?_
    rw [List.mem_range] at hi
    rw [hpage _ (by omega)]
    congr 1
    omega
  rw [hround]
  exact hf m₃ (h₃.congr (usedView_read hborrowed hcontent))

theorem readLoop_shown (bufLen : ℕ) (hsize : size < 2 ^ 64) :
    ∀ (fuel bufOffset fileOffset : ℕ) (acc : List UInt8) (m : Machine),
      bufLen - bufOffset < fuel → FileAt m₀ c inode view size m →
      Holds (Ext4MemFile.readLoop c inode bufLen fuel bufOffset fileOffset acc) m
        (fun r m' => FileAt m₀ c inode view size m' ∧
          r = (fileOffset + min (bufLen - bufOffset) (size - fileOffset),
            acc ++ shown view fileOffset (min (bufLen - bufOffset) (size - fileOffset))))
        (Exhausted m₀ c) := by
  intro fuel
  induction fuel with
  | zero => intro _ _ _ _ h; omega
  | succ fuel ih =>
    intro bufOffset fileOffset acc m hfuel h
    have hunfold : Ext4MemFile.readLoop c inode bufLen (fuel + 1) bufOffset fileOffset acc m =
        _ := bind_ok (iSize_eq h.sized)
    unfold Holds
    rw [hunfold]
    change Holds _ m _ _
    by_cases hdone : size ≤ fileOffset ∨ bufLen ≤ bufOffset
    · rw [if_pos hdone]
      have hzero : min (bufLen - bufOffset) (size - fileOffset) = 0 := by omega
      rw [hzero]
      refine holds_pure ⟨h,?_⟩
      simp [shown]
    · rw [if_neg hdone]
      simp only [pageSize]
      generalize hbyte :
        min (min (4096 - fileOffset % 4096) (bufLen - bufOffset)) (size - fileOffset) = byte
      refine round_bind h fileOffset byte rfl fun m₁ h₁ => ?_
      rw [Nat.min_eq_left (by omega)]
      have hwrap : wrappingAdd fileOffset byte = fileOffset + byte :=
        wrappingAdd_of_lt (by omega)
      rw [hwrap]
      refine (ih (bufOffset + byte) (fileOffset + byte) (acc ++ _) m₁ (by omega) h₁).imp ?_
      rintro r m' ⟨hfinal,hr⟩
      refine ⟨hfinal,?_⟩
      have hcount : min (bufLen - bufOffset) (size - fileOffset) = byte +
          min (bufLen - (bufOffset + byte)) (size - (fileOffset + byte)) := by
        omega
      rw [hr,hcount,List.append_assoc,shown_append,Nat.add_assoc]

theorem writeLoop_written (buf : List UInt8) :
    ∀ (fuel bufOffset fileOffset size : ℕ) (view : ℕ → UInt8) (m : Machine),
      buf.length - bufOffset < fuel → fileOffset + (buf.length - bufOffset) < 2 ^ 64 →
      FileAt m₀ c inode view size m →
      Holds (Ext4MemFile.writeLoop c inode buf fuel bufOffset fileOffset) m
        (fun r m' => r = fileOffset + (buf.length - bufOffset) ∧
          FileAt m₀ c inode (writeBytes view fileOffset (buf.drop bufOffset))
            (if bufOffset < buf.length then max size (fileOffset + (buf.length - bufOffset))
              else size) m')
        (Exhausted m₀ c) := by
  intro fuel
  induction fuel with
  | zero => intro _ _ _ _ _ h; omega
  | succ fuel ih =>
    intro bufOffset fileOffset size view m hfuel hend h
    unfold Ext4MemFile.writeLoop
    by_cases hdone : buf.length ≤ bufOffset
    · rw [if_pos hdone,if_neg (by omega),List.drop_eq_nil_of_le hdone,writeBytes_nil]
      exact holds_pure ⟨by omega,h⟩
    · rw [if_neg hdone,if_pos (by omega)]
      refine (pageFor_borrowed h fileOffset).bind ?_
      rintro page m₁ ⟨h₁,hborrowed⟩
      have hlive := hborrowed.inv.live _ _ _ hborrowed.found
      have hdisk := (hborrowed.shows.cached _ _ hborrowed.found).1
      simp only [pageSize]
      have hoff : fileOffset % 4096 < 4096 := Nat.mod_lt _ (by decide)
      generalize hbyte : min (4096 - fileOffset % 4096) (buf.length - bufOffset) = byte
      have hlen : ((buf.drop bufOffset).take byte).length = byte := by
        rw [List.length_take,List.length_drop]
        omega
      refine (write_page hlive.1 hdisk (h₁.sized.answers _) hoff _).weaken.bind ?_
      rintro - m₂ ⟨honly,hcontent⟩
      obtain ⟨h₂,hborrowed₂⟩ := h₁.used hborrowed honly
      have hview := usedView_written hborrowed (by rw [hlen]; omega) hcontent
      have hwrap : wrappingAdd fileOffset byte = fileOffset + byte :=
        wrappingAdd_of_lt (by omega)
      rw [hwrap]
      have hraise : raiseSize inode (fileOffset + byte) m₂ =
          .ok () (raised m₂ inode (fileOffset + byte)) := rfl
      unfold Holds
      rw [bind_ok hraise]
      refine ((h₂.raised hborrowed₂ _).returned (raised_borrowed hborrowed₂ _)).bind ?_
      rintro - m₃ h₃
      refine (ih (bufOffset + byte) (fileOffset + byte) _ _ m₃ (by omega) (by omega)
        (h₃.congr hview)).imp ?_
      rintro r m' ⟨hr,hfinal⟩
      refine ⟨by omega,?_⟩
      have hsplit := writeBytes_split view fileOffset byte (buf.drop bufOffset)
        (by rw [List.length_drop]; omega)
      rw [List.drop_drop] at hsplit
      rw [hsplit] at hfinal
      have hgrown : (if bufOffset + byte < buf.length then
          max (max size (fileOffset + byte))
            (fileOffset + byte + (buf.length - (bufOffset + byte)))
          else max size (fileOffset + byte)) =
          max size (fileOffset + (buf.length - bufOffset)) := by
        split <;> omega
      rwa [hgrown] at hfinal

end Loops

section Methods

variable {flags : OpenFlags}

theorem read_path (h : contains flags OpenFlags.O_PATH = true) (file : OpenFile) (bufLen : ℕ) :
    Ext4MemFile.read file bufLen flags = pure (file, .error .EBADF) :=
  if_pos h

theorem write_path (h : contains flags OpenFlags.O_PATH = true) (file : OpenFile)
    (buf : List UInt8) : Ext4MemFile.write file buf flags = pure (file, .error .EBADF) :=
  if_pos h

theorem read_shown (hpath : contains flags OpenFlags.O_PATH = false) (hsize : size < 2 ^ 64)
    (h : FileAt m₀ c inode view size m) (pos bufLen : ℕ) :
    Holds (Ext4MemFile.read ⟨c, inode, pos⟩ bufLen flags) m
      (fun r m' => r = (⟨c, inode, pos + min bufLen (size - pos)⟩,
          .ok (min bufLen (size - pos), shown view pos (min bufLen (size - pos)))) ∧
        FileAt m₀ c inode view size m')
      (Exhausted m₀ c) := by
  have hopen : Ext4MemFile.read ⟨c,inode,pos⟩ bufLen flags = _ := if_neg (by rw [hpath]; decide)
  rw [hopen]
  refine (readLoop_shown bufLen hsize (bufLen + 1) 0 pos [] m (by omega) h).bind ?_
  rintro _ m' ⟨h',rfl⟩
  refine holds_pure ⟨?_,h'⟩
  simp only [Nat.sub_zero,List.nil_append,length_shown]

theorem write_written (hpath : contains flags OpenFlags.O_PATH = false)
    (h : FileAt m₀ c inode view size m) {pos : ℕ} {buf : List UInt8}
    (hend : pos + buf.length < 2 ^ 64) :
    Holds (Ext4MemFile.write ⟨c, inode, pos⟩ buf flags) m
      (fun r m' => r = (⟨c, inode, pos + buf.length⟩, .ok buf.length) ∧
        FileAt m₀ c inode (writeBytes view pos buf)
          (if 0 < buf.length then max size (pos + buf.length) else size) m')
      (Exhausted m₀ c) := by
  have hopen : Ext4MemFile.write ⟨c,inode,pos⟩ buf flags = _ := if_neg (by rw [hpath]; decide)
  rw [hopen]
  refine (writeLoop_written buf (buf.length + 1) 0 pos size view m (by omega) hend h).bind ?_
  rintro _ m' ⟨rfl,h'⟩
  exact holds_pure ⟨rfl,h'⟩

theorem seek_eq (h : iSize inode m = .ok size m) (pos : ℕ) (target : SeekFrom) :
    Ext4MemFile.seek ⟨c, inode, pos⟩ target m =
      .ok (match Ext4MemFile.seekTarget pos size target with
        | none => (⟨c, inode, pos⟩, .error .EINVAL)
        | some q => (⟨c, inode, q⟩, .ok q)) m := by
  unfold Ext4MemFile.seek
  rw [bind_ok h]
  cases Ext4MemFile.seekTarget pos size target with
  | none => rfl
  | some q => rfl

theorem openFile_truncates (h : iSize inode m = .ok size m)
    (htrunc : contains flags OpenFlags.O_TRUNC = true) :
    openFile c inode flags m = .error .deadlock m := by
  have hstop : Ext4MemFile.truncate ⟨c,inode,0⟩ 0 m = .error .deadlock m := by
    unfold Ext4MemFile.truncate
    rw [bind_ok h]
    rfl
  unfold openFile
  rw [if_pos htrunc,bind_error hstop]

theorem openFile_opens (h : iSize inode m = .ok size m)
    (htrunc : contains flags OpenFlags.O_TRUNC = false) (hsize : size < 2 ^ 64) :
    openFile c inode flags m =
      .ok ⟨c, inode, if contains flags OpenFlags.O_APPEND then size else 0⟩ m := by
  have hseek : Ext4MemFile.seek ⟨c,inode,0⟩ (.fromEnd 0) m = .ok (⟨c,inode,size⟩, .ok size) m := by
    have hpos : Ext4MemFile.seekTarget 0 size (.fromEnd 0) = some size :=
      congrArg some (wrappingAdd_of_lt hsize)
    rw [seek_eq h,hpos]
  unfold openFile
  rw [if_neg (by rw [htrunc]; decide)]
  change (if contains flags OpenFlags.O_APPEND then _ else _ : Kernel OpenFile) m = _
  by_cases happend : contains flags OpenFlags.O_APPEND
  · rw [if_pos happend,if_pos happend,bind_ok hseek]
    rfl
  · rw [if_neg happend,if_neg happend]
    rfl

theorem dropCache_dropped (inv : CacheInv m) :
    Holds (dropCache c) m
      (fun _ m' => CacheInv m' ∧ CacheStep c m m' ∧ m'.inodes = m.inodes ∧ m'.pageCaches c = ∅)
      (Never Panic Machine) := by
  have hunfold : dropCache c m = (dropPages (m.pageCaches c) >>= fun _ => modify fun m =>
      { m with pageCaches := update m.pageCaches c ∅ }) m := get_bind _ m
  unfold Holds
  refine (dropPages_dropping inv).bind ?_
  intro _ m₁ h
  have hcaches : m₁.pageCaches = m.pageCaches := by rw [h.rest]
  have hother : ∀ (c' p : ℕ) (page : Page),
      (update m₁.pageCaches c ∅ c')[p]? = some page →
      c' ≠ c ∧ (m.pageCaches c')[p]? = some page := by
    intro c' p page hp
    by_cases hc : c' = c
    · rw [hc,update_self] at hp
      cases hp
    · rw [update_of_ne hc,hcaches] at hp
      exact ⟨hc,hp⟩
  refine holds_ok rfl ⟨⟨h.freeInRam,fun c' p page hp => ?_,fun c' p page c'' p' page' hp hp' => ?_⟩,
    ⟨fun i => ?_,fun c' hc => ?_,fun c' p page _ _ => ?_⟩,?_,update_self _ _ _⟩
  · obtain ⟨hc,hold⟩ := hother c' p page hp
    exact ⟨(inv.live c' p page hold).1,h.live c' p page hold fun heq => (hc heq).elim⟩
  · exact inv.apart c' p page c'' p' page' (hother c' p page hp).2 (hother c'' p' page' hp').2
  · change (m₁.inodes i).map _ = _
    rw [h.rest]
  · change update m₁.pageCaches c ∅ c' = _
    rw [update_of_ne hc,hcaches]
  · change m₁.ram page.ppn = _ ∧ m₁.dataState page.ppn = _
    rw [h.rest]
    exact ⟨rfl,rfl⟩
  · change m₁.inodes = m.inodes
    rw [h.rest]

end Methods

end DuckOs.OpenFiles
