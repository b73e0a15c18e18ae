import DuckOs.PageCaches
import DuckOs.BootMachine

namespace DuckOs.CachedPages
open ExecutionRules AddressModel KernelMachine PageTableTree PageModel DiskPages
  PageCaches BootMachine
open OrderedMaps (BTreeMap)

variable {page : Page} {info : DiskFileInfo} {image : ℕ → UInt8} {data : List UInt8}
  {m : Machine} {p : ℕ}

inductive PageOp where
  | read (offset : Fin 4096) (bufLen : ℕ)
  | write (offset : Fin 4096) (buf : List UInt8)
  | load

/-- Only a read returns bytes. -/
def PageOp.exec (page : Page) : PageOp → Kernel (List UInt8)
  | .read offset bufLen => Page.read page offset bufLen
  | .write offset buf => do
    Page.write page offset buf
    pure []
  | .load => do
    Page.load page
    pure []

def runOps (page : Page) : List PageOp → Kernel (List (List UInt8))
  | [] => pure []
  | op :: ops => do
    let out ← op.exec page
    let outs ← runOps page ops
    pure (out :: outs)

abbrev Written := ℕ → Option UInt8

variable {w : Written}

def PageOp.record (w : Written) : PageOp → Written
  | .write offset buf => fun o =>
    if offset ≤ o ∧ o < offset + min buf.length (4096 - offset) then some (buf.getD (o - offset) 0)
    else w o
  | .read _ _ => w
  | .load => w

/-- The bytes of a read are those last written, else those of the file. -/
def PageOp.Shows (data : List UInt8) (p : ℕ) (w : Written) (out : List UInt8) : PageOp → Prop
  | .read offset bufLen => out.length = min bufLen (4096 - offset) ∧
    ∀ i b, i < out.length →
      w (offset + i) = some b ∨ w (offset + i) = none ∧ data[p * 4096 + (offset + i)]? = some b →
      out[i]? = some b
  | .write _ _ => True
  | .load => True

def Shows (data : List UInt8) (p : ℕ) : Written → List PageOp → List (List UInt8) → Prop
  | _, [], outs => outs = []
  | w, op :: ops, out :: outs => op.Shows data p w out ∧ Shows data p (op.record w) ops outs
  | _, _ :: _, [] => False

/-- The sector loaded at each place has the bytes of the file there. -/
def SectorsMatch (data : List UInt8) (p : ℕ) : Prop :=
  ∀ o b, o < 4096 → data[p * 4096 + o]? = some b → data[p / 4096 + o % 512]? = some b

def Overlaid (image : ℕ → UInt8) (w : Written) (o : ℕ) : UInt8 := (w o).getD (image o)

theorem record_overlaid (image : ℕ → UInt8) (w : Written) (offset : Fin 4096) (buf : List UInt8)
    (o : ℕ) : Overlaid image (PageOp.record w (.write offset buf)) o =
      if offset ≤ o ∧ o < offset + min buf.length (4096 - offset) then buf.getD (o - offset) 0
      else Overlaid image w o := by
  unfold Overlaid PageOp.record
  dsimp only
  split
  · rfl
  · rfl

theorem exec_overlaid (hram : InRam page.ppn) (hdisk : page.diskFile = some info)
    (ha : Answers m info) (hc : contentOf m page info = Overlaid image w) (op : PageOp) :
    Holds (op.exec page) m
      (fun out m' => Answers m' info ∧ contentOf m' page info = Overlaid image (op.record w) ∧
        ∀ offset bufLen, op = .read offset bufLen →
          out = (List.range (min bufLen (4096 - offset))).map fun i =>
            Overlaid image w (offset + i))
      (Never Panic Machine) := by
  cases op with
  | read offset bufLen =>
    refine (read_page hram hdisk ha offset.isLt bufLen).imp ?_
    rintro out m' ⟨honly,hcontent,hout⟩
    refine ⟨honly.answers ha,hcontent.trans hc,?_⟩
    rintro _ _ ⟨rfl,rfl⟩
    rw [hout,hc]
  | write offset buf =>
    refine (write_page hram hdisk ha offset.isLt buf).bind ?_
    rintro - m' ⟨honly,hcontent⟩
    refine holds_pure ⟨honly.answers ha,hcontent.trans ?_,fun _ _ h => (by cases h)⟩
    funext o
    rw [record_overlaid,hc]
  | load =>
    refine (load_page hram hdisk ha).bind ?_
    rintro - m' ⟨honly,hcontent⟩
    exact holds_pure ⟨honly.answers ha,hcontent.trans hc,fun _ _ h => (by cases h)⟩

theorem shows_read (himage : ∀ o b, o < 4096 → data[p * 4096 + o]? = some b → image o = b)
    (offset : Fin 4096) (bufLen : ℕ) : (PageOp.read offset bufLen).Shows data p w
      ((List.range (min bufLen (4096 - offset))).map fun i => Overlaid image w (offset + i)) := by
  refine ⟨by rw [List.length_map,List.length_range],fun i b hi hb => ?_⟩
  rw [List.length_map,List.length_range] at hi
  rw [List.getElem?_map,List.getElem?_range hi,Option.map_some]
  refine congrArg some ?_
  unfold Overlaid
  rcases hb with hw | ⟨hw,hdata⟩
  · rw [hw]
    rfl
  · rw [hw]
    exact himage _ b (by omega) hdata

theorem runOps_shows (hram : InRam page.ppn) (hdisk : page.diskFile = some info)
    (himage : ∀ o b, o < 4096 → data[p * 4096 + o]? = some b → image o = b) :
    ∀ (ops : List PageOp) (w : Written) (m : Machine), Answers m info →
      contentOf m page info = Overlaid image w →
      Holds (runOps page ops) m (fun outs _ => Shows data p w ops outs) (Never Panic Machine) := by
  intro ops
  induction ops with
  | nil => exact fun w m _ _ => holds_pure rfl
  | cons op ops ih =>
    intro w m ha hc
    refine (exec_overlaid hram hdisk ha hc op).bind ?_
    rintro out m₁ ⟨ha₁,hc₁,hout⟩
    refine (ih (op.record w) m₁ ha₁ hc₁).bind ?_
    rintro outs m₂ houts
    refine holds_pure ⟨?_,houts⟩
    cases op with
    | read offset bufLen =>
      rw [hout offset bufLen rfl]
      exact shows_read himage offset bufLen
    | write offset buf => trivial
    | load => trivial

theorem contentOf_new {node : Inode}
    (hnode : m.inodes info.inode = some node)
    (hread : ∀ offset len, node.read offset len = some ((data.drop offset).take len))
    (hempty : ∀ i, m.dataState page.ppn i = .empty) (hzero : m.ram page.ppn = fun _ => 0) :
    contentOf m page info = imageOf data info.pageNumOffset := by
  funext o
  rw [contentOf,if_pos (hempty _),hzero,sectorBytes_of_data hnode hread,writeBytes_sector]
  rfl

theorem findPageAndCreate_new {cache fileOffset inode : ℕ}
    (hram : ∀ f ∈ m.frameAllocator.free, InRam f)
    (hnew : (m.pageCaches cache)[fileOffset / 4096]? = none) :
    Holds (PageCache.findPageAndCreate cache fileOffset (some inode)) m
      (fun found m' => ∃ page, found = some page ∧ page.ppn ∈ m.frameAllocator.free ∧
        page.diskFile = some ⟨inode, fileOffset / 4096⟩ ∧ m'.inodes = m.inodes ∧
        (∀ i, m'.dataState page.ppn i = .empty) ∧ m'.ram page.ppn = fun _ => 0)
      (fun _ _ => m.frameAllocator.free = []) := by
  cases halloc : m.frameAllocator.alloc with
  | none => exact holds_error (findPageAndCreate_exhausted hnew halloc) (alloc_eq_none halloc)
  | some xr =>
    obtain ⟨x,rest⟩ := xr
    have hfree := alloc_mem halloc
    refine holds_ok (findPageAndCreate_created hnew halloc (hram x hfree))
      ⟨_,rfl,hfree,rfl,rfl,fun i => ?_,takeFrame_ram_self m x rest⟩
    change Function.update m.dataState x (fun _ => .empty) x i = .empty
    rw [Function.update_self]

/-- For a new page of any file: every sequence of accesses returns and shows the writes over
the file exactly if the sectors match. -/
theorem cached_page_shows_iff (m m₁ : Machine) (cache fileOffset inode : ℕ) (node : Inode)
    (data : List UInt8) (page : Page) (hram : ∀ f ∈ m.frameAllocator.free, InRam f)
    (hnode : m.inodes inode = some node)
    (hread : ∀ offset len, node.read offset len = some ((data.drop offset).take len))
    (hnew : (m.pageCaches cache)[fileOffset / 4096]? = none)
    (created : PageCache.findPageAndCreate cache fileOffset (some inode) m = .ok (some page) m₁) :
    (∀ ops, ∃ outs m', runOps page ops m₁ = .ok outs m' ∧
      Shows data (fileOffset / 4096) (fun _ => none) ops outs) ↔
      SectorsMatch data (fileOffset / 4096) := by
  obtain ⟨_,hpage,hfree,hdisk,hinodes,hempty,hzero⟩ :=
    (findPageAndCreate_new hram hnew).of_ok created
  cases hpage
  have hnode₁ : m₁.inodes inode = some node := by rw [hinodes,hnode]
  have ha : Answers m₁ ⟨inode,fileOffset / 4096⟩ :=
    ⟨node,hnode₁,fun offset len hc => by rw [hread] at hc; cases hc⟩
  have hc : contentOf m₁ page ⟨inode,fileOffset / 4096⟩ =
      Overlaid (imageOf data (fileOffset / 4096)) fun _ => none :=
    contentOf_new hnode₁ hread hempty hzero
  have hr := hram _ hfree
  generalize fileOffset / 4096 = p at hdisk ha hc ⊢
  constructor
  · intro hall o b ho hdata
    obtain ⟨outs,m',hrun,hshows⟩ := hall [.read 0 4096]
    obtain ⟨out,m₂,hout,hrest⟩ := bind_eq_ok hrun
    obtain ⟨-,-,hbytes⟩ := (exec_overlaid hr hdisk ha hc (.read 0 4096)).of_ok hout
    obtain ⟨nils,m₃,hnil,hdone⟩ := bind_eq_ok hrest
    cases hnil
    cases hdone
    obtain ⟨⟨hlen,hb⟩,-⟩ := hshows
    have hbyte := hb o b (by rw [hlen]; exact ho) (.inr ⟨rfl,by
      change data[p * 4096 + (0 + o)]? = some b
      rw [Nat.zero_add]
      exact hdata⟩)
    have hrange : o < min 4096 (4096 - ((0 : Fin 4096) : ℕ)) := ho
    rw [hbytes 0 4096 rfl,List.getElem?_map,List.getElem?_range hrange,Option.map_some] at hbyte
    have himage : data.getD (p / 4096 + (0 + o) % 512) 0 = b := Option.some.inj hbyte
    have hlt := (List.getElem?_eq_some_iff.mp hdata).1
    have hin : p / 4096 + o % 512 < data.length := by omega
    rw [Nat.zero_add,List.getD_eq_getElem?_getD,List.getElem?_eq_getElem hin] at himage
    rw [List.getElem?_eq_getElem hin]
    exact congrArg some himage
  · intro hmatch ops
    refine (runOps_shows hr hdisk ?_ ops _ m₁ ha hc).returns
    intro o b ho hdata
    rw [imageOf,List.getD_eq_getElem?_getD,hmatch o b ho hdata]
    rfl

/-- A machine with one file. -/
def diskMachine (data : List UInt8) : Machine :=
  { bootMachine 64 with
    inodes := fun _ => some ⟨data.length, fun offset len => some ((data.drop offset).take len)⟩ }

/-- The first page of a file of three bytes. -/
theorem cached_page_shows_short : ∃ m₁ page,
    PageCache.findPageAndCreate 0 0 (some 0) (diskMachine [1, 2, 3]) = .ok (some page) m₁ ∧
    (∀ f ∈ (diskMachine [1, 2, 3]).frameAllocator.free, InRam f) ∧
    ((diskMachine [1, 2, 3]).pageCaches 0)[0 / 4096]? = none ∧ SectorsMatch [1, 2, 3] 0 ∧
    ∀ ops, ∃ outs m', runOps page ops m₁ = .ok outs m' ∧
      Shows [1, 2, 3] 0 (fun _ => none) ops outs := by
  have computed : returnsWith (PageCache.findPageAndCreate 0 0 (some 0)) (diskMachine [1,2,3])
      (fun found _ => found.isSome) = true := by
    decide +kernel
  obtain ⟨found,m₁,created,hsome⟩ := returnsWith_elim computed
  obtain ⟨page,rfl⟩ := Option.isSome_iff_exists.mp hsome
  obtain ⟨kernel,root,-,r,-,hcaches⟩ := bootMachine_table (n := 64) (by decide) (by decide)
  have hram : ∀ f ∈ (diskMachine [1,2,3]).frameAllocator.free, InRam f := r.tree.freeInRam
  have hnew : ((diskMachine [1,2,3]).pageCaches 0)[0 / 4096]? = none := by
    change ((bootMachine 64).pageCaches 0)[0 / 4096]? = none
    rw [hcaches,Std.ExtTreeMap.getElem?_empty]
  have hmatch : SectorsMatch [1,2,3] 0 := by
    intro o b ho hdata
    rw [Nat.zero_mul,Nat.zero_add] at hdata
    have hlt : o < 3 := (List.getElem?_eq_some_iff.mp hdata).1
    rw [Nat.zero_div,Nat.zero_add,Nat.mod_eq_of_lt (by omega)]
    exact hdata
  have hnode : (diskMachine [1,2,3]).inodes 0 =
      some ⟨3,fun offset len => some (([1,2,3].drop offset).take len)⟩ := rfl
  refine ⟨m₁,page,created,hram,hnew,hmatch,?_⟩
  generalize diskMachine [1,2,3] = m at created hram hnew hnode
  exact (cached_page_shows_iff m m₁ 0 0 0 _ [1,2,3] page hram hnode (fun _ _ => rfl) hnew
    created).mpr hmatch

/-- Byte 512 of the file is 2, and the page shows byte 0. -/
theorem cached_page_repeats_sector : ∃ m₁ page outs m',
    PageCache.findPageAndCreate 0 0 (some 0) (diskMachine (List.replicate 512 1 ++ [2])) =
      .ok (some page) m₁ ∧
    runOps page [.read 512 1] m₁ = .ok outs m' ∧ outs = [[1]] ∧
    (List.replicate 512 (1 : UInt8) ++ [2])[512]? = some 2 ∧
    ¬ Shows (List.replicate 512 1 ++ [2]) 0 (fun _ => none) [.read 512 1] outs := by
  have computed : returnsWith (PageCache.findPageAndCreate 0 0 (some 0))
      (diskMachine (List.replicate 512 1 ++ [2])) (fun found m₁ => found.any fun page =>
        returnsWith (runOps page [.read 512 1]) m₁ fun outs _ => outs == [[1]]) = true := by
    decide +kernel
  obtain ⟨found,m₁,created,computed⟩ := returnsWith_elim computed
  obtain ⟨page,rfl,computed⟩ := (Option.any_eq_true _ _).mp computed
  obtain ⟨outs,m',hrun,houts⟩ := returnsWith_elim computed
  obtain rfl := beq_iff_eq.mp houts
  have hbyte : (List.replicate 512 (1 : UInt8) ++ [2])[512]? = some 2 := by decide +kernel
  refine ⟨m₁,page,_,m',created,hrun,rfl,hbyte,?_⟩
  rintro ⟨⟨-,hb⟩,-⟩
  have hone := hb 0 2 (by decide) (.inr ⟨rfl,hbyte⟩)
  exact absurd hone (by decide)

end DuckOs.CachedPages
