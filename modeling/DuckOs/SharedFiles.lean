import DuckOs.ByteArrayFiles

namespace DuckOs.SharedFiles
open ExecutionRules AddressModel PermissionFlags KernelMachine PageModel Function
open PageCaches Ext4FileModel OpenFiles BootMachine
open ByteArrayFiles (Outcome)

variable {fd count size c inode : ℕ} {info : FdInfo} {buf data : List UInt8}

/-- The descriptors that separate opens of the inode gave, by the number of the open; the same
number names the page cache. -/
structure Opens where
  table : ℕ → Option FdInfo
  next : ℕ

def Opens.set (opens : Opens) (fd : ℕ) (info : Option FdInfo) : Opens :=
  { opens with table := update opens.table fd info }

@[simp] theorem Opens.set_self (opens : Opens) (fd : ℕ) (info : Option FdInfo) :
    (opens.set fd info).table fd = info := by
  simp [Opens.set]

theorem Opens.set_ne (opens : Opens) {fd' : ℕ} (info : Option FdInfo) (h : fd' ≠ fd) :
    (opens.set fd info).table fd' = opens.table fd' := by
  simp [Opens.set,h]

inductive DescOp where
  | openAt (flags : OpenFlags)
  | read (fd count : ℕ)
  | write (fd : ℕ) (buf : List UInt8)
  | seek (fd : ℕ) (target : SeekFrom)
  | close (fd : ℕ)

def DescOp.exec (inode : ℕ) (opens : Opens) : DescOp → Kernel (Opens × Outcome)
  | .openAt flags => do
    let file ← openFile opens.next inode flags
    pure ({ opens.set opens.next (some ⟨file, flags⟩) with next := opens.next + 1 },
      .count (.ok opens.next))
  | .read fd count =>
    match opens.table fd with
    | none => pure (opens, .bytes (.error .EBADF))
    | some info => do
      let r ← sysRead info count
      pure (opens.set fd (some { info with file := r.1 }), .bytes r.2)
  | .write fd buf =>
    match opens.table fd with
    | none => pure (opens, .count (.error .EBADF))
    | some info => do
      let r ← sysWrite info buf
      pure (opens.set fd (some { info with file := r.1 }), .count r.2)
  | .seek fd target =>
    match opens.table fd with
    | none => pure (opens, .count (.error .EBADF))
    | some info => do
      let r ← Ext4MemFile.seek info.file target
      pure (opens.set fd (some { info with file := r.1 }), .count r.2)
  | .close fd =>
    match opens.table fd with
    | none => pure (opens, .count (.error .EBADF))
    | some info => do
      dropCache info.file.pageCache
      pure (opens.set fd none, .count (.ok 0))

def runOpens (inode : ℕ) : List DescOp → Opens → Kernel (List Outcome)
  | [], _ => pure []
  | op :: ops, opens => do
    let r ← op.exec inode opens
    let rest ← runOpens inode ops r.1
    pure (r.2 :: rest)

/-- An open that truncates. -/
def DescOp.truncates : DescOp → Bool
  | .openAt flags => contains flags OpenFlags.O_TRUNC
  | _ => false

section Histories

abbrev Written := ℕ → Option UInt8

def Written.write (w : Written) (pos : ℕ) (buf : List UInt8) : Written := fun x =>
  if pos ≤ x ∧ x < pos + buf.length then some (buf.getD (x - pos) 0) else w x

/-- What was written, through any descriptor and through each. -/
structure History where
  opens : Opens
  size : ℕ
  latest : Written
  own : ℕ → Written

def reads (flags : OpenFlags) (count : ℕ) : Bool :=
  flags.isReadable && (count != 0) && !contains flags OpenFlags.O_PATH

def writes (flags : OpenFlags) (buf : List UInt8) : Bool :=
  flags.isWritable && (buf.length != 0) && !contains flags OpenFlags.O_PATH

namespace History

variable (inode : ℕ)

def moved (h : History) (fd : ℕ) (info : FdInfo) (pos : ℕ) : History :=
  { h with opens := h.opens.set fd (some { info with file := { info.file with pos := pos } }) }

/-- What each call adds to the history. -/
def exec (h : History) : DescOp → History
  | .openAt flags => { h with
      opens := { h.opens.set h.opens.next (some ⟨⟨h.opens.next, inode,
        if contains flags OpenFlags.O_APPEND then h.size else 0⟩, flags⟩) with
          next := h.opens.next + 1 }
      own := update h.own h.opens.next fun _ => none }
  | .read fd count =>
    match h.opens.table fd with
    | none => h
    | some info => h.moved fd info (if reads info.flags count then
        info.file.pos + min count (h.size - info.file.pos) else info.file.pos)
  | .write fd buf =>
    match h.opens.table fd with
    | none => h
    | some info =>
      if writes info.flags buf then
        { h.moved fd info (info.file.pos + buf.length) with
          size := max h.size (info.file.pos + buf.length)
          latest := h.latest.write info.file.pos buf
          own := update h.own fd ((h.own fd).write info.file.pos buf) }
      else h.moved fd info info.file.pos
  | .seek fd target =>
    match h.opens.table fd with
    | none => h
    | some info => h.moved fd info
        ((Ext4MemFile.seekTarget info.file.pos h.size target).getD info.file.pos)
  | .close fd =>
    match h.opens.table fd with
    | none => h
    | some _ => { h with opens := h.opens.set fd none }

end History

/-- No write goes past the last position of a machine word. -/
def DescOp.Bounded (h : History) : DescOp → Prop
  | .write fd buf => ∀ info, h.opens.table fd = some info → info.file.pos + buf.length < 2 ^ 64
  | _ => True

variable (data : List UInt8)

def Wanted (h : History) (x : ℕ) (b : UInt8) : Prop :=
  h.latest x = some b ∨ h.latest x = none ∧ data[x]? = some b

def overlay (h : History) (fd x : ℕ) : UInt8 :=
  (h.own fd x).getD (imageOf data (x / 4096) (x % 4096))

def DescOp.Right (h : History) (out : Outcome) : DescOp → Prop
  | .read fd count => ∀ info, h.opens.table fd = some info → ∀ r, out = .bytes (.ok r) →
    r.2.length = min count (h.size - info.file.pos) ∧
      ∀ i b, i < r.2.length → Wanted data h (info.file.pos + i) b → r.2[i]? = some b
  | _ => True

/-- Wherever the read reaches, what the descriptor shows is what is wanted. -/
def DescOp.Agrees (h : History) : DescOp → Prop
  | .read fd count => ∀ info, h.opens.table fd = some info → reads info.flags count = true →
    ∀ x b, info.file.pos ≤ x → x < info.file.pos + min count (h.size - info.file.pos) →
      Wanted data h x b → overlay data h fd x = b
  | _ => True

variable (inode : ℕ)

def BoundedAlong : History → List DescOp → Prop
  | _, [] => True
  | h, op :: ops => op.Bounded h ∧ BoundedAlong (h.exec inode op) ops

def RightAlong : History → List DescOp → List Outcome → Prop
  | _, [], outs => outs = []
  | h, op :: ops, out :: outs => op.Right data h out ∧ RightAlong (h.exec inode op) ops outs
  | _, _ :: _, [] => False

def AgreesAlong : History → List DescOp → Prop
  | _, [] => True
  | h, op :: ops => op.Agrees data h ∧ AgreesAlong (h.exec inode op) ops

theorem RightAlong.nth {h : History} {ops : List DescOp} {outs : List Outcome}
    (right : RightAlong data inode h ops outs) {i : ℕ} {op : DescOp} {out : Outcome}
    (hop : ops[i]? = some op) (hout : outs[i]? = some out) :
    op.Right data ((ops.take i).foldl (History.exec inode) h) out := by
  induction ops generalizing h outs i with
  | nil => cases hop
  | cons op' ops ih =>
    cases outs with
    | nil => cases hout
    | cons out' outs =>
      cases i with
      | zero =>
        cases hop
        cases hout
        exact right.1
      | succ i => exact ih right.2 hop hout

end Histories

section Steps

variable {h : History} {m m' : Machine} {op : DescOp}

theorem Written.getD_write (w : Written) (image : ℕ → UInt8) (pos : ℕ) (buf : List UInt8) (x : ℕ) :
    (w.write pos buf x).getD (image x) = writeBytes (fun x => (w x).getD (image x)) pos buf x := by
  unfold Written.write writeBytes
  split
  · rfl
  · rfl

def Holding (data : List UInt8) (inode size : ℕ) (m : Machine) : Prop :=
  ∃ node, m.inodes inode = some node ∧ node.size = size ∧
    ∀ offset len, node.read offset len = some ((data.drop offset).take len)

theorem Holding.sized (hold : Holding data inode size m) : Sized m inode size := by
  obtain ⟨node,hnode,hsize,hread⟩ := hold
  refine ⟨node,hnode,hsize,fun offset len hc => ?_⟩
  rw [hread] at hc
  cases hc

theorem Holding.after {size' : ℕ} (hold : Holding data inode size m) (step : CacheStep c m m')
    (sized : Sized m' inode size') : Holding data inode size' m' := by
  obtain ⟨node,hnode,-,hread⟩ := hold
  obtain ⟨node',hnode',hsize',-⟩ := sized
  have hsame := step.reads inode
  rw [hnode,hnode',Option.map_some,Option.map_some,Option.some.injEq] at hsame
  refine ⟨node',hnode',hsize',fun offset len => ?_⟩
  rw [hsame]
  exact hread offset len

structure Tracks (data : List UInt8) (inode : ℕ) (h : History) (m : Machine) : Prop where
  inv : CacheInv m
  holding : Holding data inode h.size m
  bounded : h.size < 2 ^ 64
  fresh : ∀ c, h.opens.next ≤ c → m.pageCaches c = ∅
  shows : ∀ fd info, h.opens.table fd = some info →
    info.file.pageCache = fd ∧ info.file.inode = inode ∧ fd < h.opens.next ∧
      ShowsFile m fd inode (overlay data h fd)

theorem Tracks.fileAt (t : Tracks data inode h m)
    (hinfo : h.opens.table fd = some info) :
    info.file = ⟨fd, inode, info.file.pos⟩ ∧ FileAt m fd inode (overlay data h fd) h.size m := by
  obtain ⟨hcache,hinode,-,hshows⟩ := t.shows fd info hinfo
  refine ⟨?_,t.inv,hshows,t.holding.sized,CacheStep.refl fd m,rfl,fun _ _ => rfl⟩
  cases hfile : info.file with
  | mk pageCache inode' pos =>
    rw [hfile] at hcache hinode
    rw [← hcache,← hinode]

theorem Tracks.accessed {h' : History} {info' : FdInfo} (t : Tracks data inode h m)
    (hinfo : h.opens.table fd = some info)
      (after : FileAt m fd inode (overlay data h' fd) h'.size m')
    (hbounded : h'.size < 2 ^ 64) (hopens : h'.opens = h.opens.set fd (some info'))
    (hinfo' : info'.file.pageCache = fd ∧ info'.file.inode = inode)
    (hown : ∀ fd', fd' ≠ fd → h'.own fd' = h.own fd') : Tracks data inode h' m' := by
  have hlt := (t.shows fd info hinfo).2.2.1
  have hnext : h'.opens.next = h.opens.next := by rw [hopens]; rfl
  refine ⟨after.inv,t.holding.after after.step after.sized,hbounded,fun c hc => ?_,
    fun fd' info'' hfd' => ?_⟩
  · rw [hnext] at hc
    rw [after.step.caches c (by omega)]
    exact t.fresh c hc
  · rw [hnext]
    rw [hopens] at hfd'
    by_cases heq : fd' = fd
    · subst heq
      rw [Opens.set_self,Option.some.injEq] at hfd'
      subst hfd'
      exact ⟨hinfo'.1,hinfo'.2,hlt,after.shows⟩
    · rw [Opens.set_ne _ _ heq] at hfd'
      obtain ⟨h₁,h₂,h₃,hshows⟩ := t.shows fd' info'' hfd'
      refine ⟨h₁,h₂,h₃,?_⟩
      have hview : overlay data h' fd' = overlay data h fd' := by
        funext x
        rw [overlay,overlay,hown fd' heq]
      rw [hview]
      exact hshows.other after.step heq

def Stops (op : DescOp) (e : Panic) (m : Machine) : Prop :=
  e = .outOfFrames ∧ m.frameAllocator.free = [] ∨ e = .deadlock ∧ op.truncates = true

def Answered (data : List UInt8) (inode : ℕ) (h : History) (op : DescOp) (r : Opens × Outcome)
    (m : Machine) : Prop :=
  r.1 = (h.exec inode op).opens ∧ Tracks data inode (h.exec inode op) m ∧
    op.truncates = false ∧ (op.Right data h r.2 ↔ op.Agrees data h)

theorem exhausted_stops {e : Panic} (hx : Exhausted m c e m') : Stops op e m' :=
  .inl ⟨hx.1,hx.2.1⟩

theorem right_iff_agrees (hinfo : h.opens.table fd = some info)
    (hreads : reads info.flags count = true) :
    (DescOp.read fd count).Right data h (.bytes (.ok (min count (h.size - info.file.pos),
      shown (overlay data h fd) info.file.pos (min count (h.size - info.file.pos))))) ↔
      (DescOp.read fd count).Agrees data h := by
  generalize hn : min count (h.size - info.file.pos) = n
  have hbyte : ∀ i, i < n → (shown (overlay data h fd) info.file.pos n)[i]? =
      some (overlay data h fd (info.file.pos + i)) := by
    intro i hi
    rw [shown,List.getElem?_map,List.getElem?_range hi,Option.map_some]
  constructor
  · intro hright info' hinfo' _ x b hlow hhigh hwanted
    cases hinfo.symm.trans hinfo'
    obtain ⟨-,hbytes⟩ := hright info hinfo _ rfl
    have hx : info.file.pos + (x - info.file.pos) = x := by omega
    have hgot := hbytes (x - info.file.pos) b (by rw [length_shown]; omega) (by rwa [hx])
    rw [hbyte _ (by omega),hx] at hgot
    exact Option.some.inj hgot
  · intro hagrees info' hinfo' r hr
    cases hinfo.symm.trans hinfo'
    cases hr
    refine ⟨by rw [length_shown,hn],fun i b hi hwanted => ?_⟩
    rw [length_shown] at hi
    rw [hbyte i hi]
    exact congrArg some (hagrees info hinfo hreads _ b (by omega) (by rw [hn]; omega) hwanted)

theorem openAt_answered (t : Tracks data inode h m) (flags : OpenFlags) :
    Holds ((DescOp.openAt flags).exec inode h.opens) m
      (Answered data inode h (.openAt flags)) (Stops (.openAt flags)) := by
  cases htrunc : contains flags OpenFlags.O_TRUNC with
  | true =>
    exact holds_error (bind_error (openFile_truncates (iSize_eq t.holding.sized) htrunc))
      (.inr ⟨rfl,htrunc⟩)
  | false =>
    refine holds_ok (bind_ok (openFile_opens (iSize_eq t.holding.sized) htrunc t.bounded))
      ⟨rfl,?_,htrunc,Iff.rfl⟩
    refine ⟨t.inv,t.holding,t.bounded,fun c hc => t.fresh c (by
      change h.opens.next + 1 ≤ c at hc
      omega),fun fd info hfd => ?_⟩
    change update h.opens.table h.opens.next _ fd = some info at hfd
    by_cases heq : fd = h.opens.next
    · subst heq
      rw [update_self,Option.some.injEq] at hfd
      subst hfd
      refine ⟨rfl,rfl,Nat.lt_succ_self _,fun p page hp => ?_,fun p _ o ho => ?_⟩
      · rw [t.fresh _ le_rfl] at hp
        cases hp
      · obtain ⟨node,hnode,-,hread⟩ := t.holding
        rw [diskByte_of_data hnode hread]
        change _ = (update h.own h.opens.next (fun _ => none) h.opens.next _).getD _
        rw [update_self]
        rfl
    · rw [update_of_ne heq] at hfd
      obtain ⟨h₁,h₂,h₃,hshows⟩ := t.shows fd info hfd
      refine ⟨h₁,h₂,Nat.lt_succ_of_lt h₃,hshows.congr fun x => ?_⟩
      change _ = (update h.own h.opens.next (fun _ => none) fd x).getD _
      rw [update_of_ne heq]
      rfl

theorem answered_unknown (out : Outcome) (t : Tracks data inode h m)
    (hexec : h.exec inode op = h) (hop : op.exec inode h.opens = pure (h.opens, out))
    (htrunc : op.truncates = false) (hiff : op.Right data h out ↔ op.Agrees data h) :
    Holds (op.exec inode h.opens) m (Answered data inode h op) (Stops op) := by
  rw [hop]
  refine holds_pure ⟨?_,?_,htrunc,hiff⟩
  · rw [hexec]
  · rw [hexec]
    exact t

theorem Tracks.moved (t : Tracks data inode h m)
    (hinfo : h.opens.table fd = some info) (pos : ℕ)
    (after : FileAt m fd inode (overlay data h fd) h.size m') :
    Tracks data inode (h.moved fd info pos) m' := by
  obtain ⟨hcache,hinode,-,-⟩ := t.shows fd info hinfo
  exact t.accessed hinfo after t.bounded rfl ⟨hcache,hinode⟩ fun _ _ => rfl

theorem sysRead_reads (hreads : reads info.flags count = true) :
    sysRead info count = Ext4MemFile.read info.file count info.flags ∧
      contains info.flags OpenFlags.O_PATH = false := by
  simp only [reads,Bool.and_eq_true,bne_iff_ne,Bool.not_eq_true'] at hreads
  obtain ⟨⟨hreadable,hcount⟩,hpath⟩ := hreads
  simp [sysRead,hreadable,hcount,hpath]

theorem sysRead_refused (hreads : reads info.flags count = false) :
    ∃ r, sysRead info count = pure (info.file, r) ∧
      ∀ out, r = .ok out → count = 0 ∧ out = (0, []) := by
  unfold sysRead
  by_cases hreadable : info.flags.isReadable = false
  · exact ⟨_,if_pos hreadable,fun _ hr => by cases hr⟩
  · rw [if_neg hreadable]
    by_cases hcount : count = 0
    · refine ⟨_,if_pos hcount,fun _ hr => ?_⟩
      cases hr
      exact ⟨hcount,rfl⟩
    · rw [if_neg hcount]
      have hpath : contains info.flags OpenFlags.O_PATH = true := by
        simp only [reads,Bool.not_eq_false] at hreads hreadable
        simpa [hreadable,hcount] using hreads
      exact ⟨_,read_path hpath _ _,fun _ hr => by cases hr⟩

theorem read_answered (t : Tracks data inode h m) (fd count : ℕ) :
    Holds ((DescOp.read fd count).exec inode h.opens) m
      (Answered data inode h (.read fd count)) (Stops (.read fd count)) := by
  cases hinfo : h.opens.table fd with
  | none =>
    refine answered_unknown (.bytes (.error .EBADF)) t (by simp only [History.exec,hinfo])
      (by simp only [DescOp.exec,hinfo]) rfl ?_
    simp [DescOp.Right,DescOp.Agrees,hinfo]
  | some info =>
    obtain ⟨hfile,at₀⟩ := t.fileAt hinfo
    have hop : (DescOp.read fd count).exec inode h.opens = (do
        let r ← sysRead info count
        pure (h.opens.set fd (some { info with file := r.1 }), .bytes r.2)) := by
      simp only [DescOp.exec,hinfo]
    have hexec : h.exec inode (.read fd count) = h.moved fd info (if reads info.flags count then
        info.file.pos + min count (h.size - info.file.pos) else info.file.pos) := by
      simp only [History.exec,hinfo]
    rw [hop]
    unfold Answered
    rw [hexec]
    cases hreads : reads info.flags count with
    | true =>
      obtain ⟨hread,hpath⟩ := sysRead_reads hreads
      have hshown := read_shown hpath t.bounded at₀ info.file.pos count
      rw [← hfile] at hshown
      rw [hread]
      refine (hshown.onError fun _ _ hx => exhausted_stops hx).bind ?_
      rintro _ m' ⟨rfl,after⟩
      refine holds_pure ⟨?_,t.moved hinfo _ after,rfl,right_iff_agrees hinfo hreads⟩
      change Opens.set _ _ _ = Opens.set _ _ _
      rw [hfile]
      rfl
    | false =>
      obtain ⟨r,hrefused,hempty⟩ := sysRead_refused hreads
      rw [hrefused]
      refine holds_pure ⟨rfl,t.moved hinfo _ at₀,rfl,?_⟩
      refine iff_of_true ?_ ?_
      · intro info' hinfo' out hout
        obtain ⟨rfl,rfl⟩ := hempty out (Outcome.bytes.inj hout)
        exact ⟨(Nat.zero_min _).symm,fun i b hi => absurd hi (Nat.not_lt_zero i)⟩
      · intro info' hinfo' hreads'
        cases hinfo.symm.trans hinfo'
        rw [hreads] at hreads'
        cases hreads'

theorem sysWrite_writes (hwrites : writes info.flags buf = true) :
    sysWrite info buf = Ext4MemFile.write info.file buf info.flags ∧
      contains info.flags OpenFlags.O_PATH = false ∧ 0 < buf.length := by
  simp only [writes,Bool.and_eq_true,bne_iff_ne,Bool.not_eq_true'] at hwrites
  obtain ⟨⟨hwritable,hlen⟩,hpath⟩ := hwrites
  refine ⟨?_,hpath,by omega⟩
  unfold sysWrite
  rw [if_neg (by rw [hwritable]; decide),if_neg hlen]

theorem sysWrite_refused (hwrites : writes info.flags buf = false) :
    ∃ r, sysWrite info buf = pure (info.file, r) := by
  unfold sysWrite
  by_cases hwritable : info.flags.isWritable = false
  · exact ⟨_,if_pos hwritable⟩
  · rw [if_neg hwritable]
    by_cases hlen : buf.length = 0
    · exact ⟨_,if_pos hlen⟩
    · rw [if_neg hlen]
      have hpath : contains info.flags OpenFlags.O_PATH = true := by
        simp only [writes,Bool.not_eq_false] at hwrites hwritable
        simpa [hwritable,hlen] using hwrites
      exact ⟨_,write_path hpath _ _⟩

/-- The history with bytes that are written. -/
def History.wrote (h : History) (fd : ℕ) (info : FdInfo) (buf : List UInt8) : History :=
  { h.moved fd info (info.file.pos + buf.length) with
    size := max h.size (info.file.pos + buf.length)
    latest := h.latest.write info.file.pos buf
    own := update h.own fd ((h.own fd).write info.file.pos buf) }

theorem exec_wrote (hinfo : h.opens.table fd = some info) (hwrites : writes info.flags buf = true) :
    h.exec inode (.write fd buf) = h.wrote fd info buf := by
  simp only [History.exec,hinfo,hwrites,if_true,History.wrote]

theorem overlay_wrote (buf : List UInt8) (x : ℕ) : overlay data (h.wrote fd info buf) fd x =
    writeBytes (overlay data h fd) info.file.pos buf x := by
  change (update h.own fd ((h.own fd).write info.file.pos buf) fd x).getD _ = _
  rw [update_self]
  exact Written.getD_write (h.own fd) (fun x => imageOf data (x / 4096) (x % 4096)) _ buf x

section

variable (t : Tracks data inode h m)
include t

theorem write_answered (fd : ℕ) (buf : List UInt8) (hb : (DescOp.write fd buf).Bounded h) :
    Holds ((DescOp.write fd buf).exec inode h.opens) m
      (Answered data inode h (.write fd buf)) (Stops (.write fd buf)) := by
  cases hinfo : h.opens.table fd with
  | none =>
    exact answered_unknown (.count (.error .EBADF)) t (by simp only [History.exec,hinfo])
      (by simp only [DescOp.exec,hinfo]) rfl Iff.rfl
  | some info =>
    obtain ⟨hfile,at₀⟩ := t.fileAt hinfo
    obtain ⟨hcache,hinode,-,-⟩ := t.shows fd info hinfo
    have hop : (DescOp.write fd buf).exec inode h.opens = (do
        let r ← sysWrite info buf
        pure (h.opens.set fd (some { info with file := r.1 }), .count r.2)) := by
      simp only [DescOp.exec,hinfo]
    rw [hop]
    unfold Answered
    cases hwrites : writes info.flags buf with
    | true =>
      obtain ⟨hwrite,hpath,hlen⟩ := sysWrite_writes hwrites
      have hend := hb info hinfo
      have hwritten := write_written hpath at₀ hend
      rw [← hfile,if_pos hlen] at hwritten
      rw [hwrite,exec_wrote hinfo hwrites]
      refine (hwritten.onError fun _ _ hx => exhausted_stops hx).bind ?_
      rintro _ m' ⟨rfl,after⟩
      have hbound := t.bounded
      refine holds_pure ⟨?_,t.accessed hinfo
        (after.congr fun x => (overlay_wrote buf x).symm) ?_ rfl
        ⟨hcache,hinode⟩ fun fd' hne => update_of_ne hne _ _,rfl,Iff.rfl⟩
      · change Opens.set _ _ _ = Opens.set _ _ _
        rw [hfile]
      · change max h.size (info.file.pos + buf.length) < 2 ^ 64
        omega
    | false =>
      have hexec : h.exec inode (.write fd buf) = h.moved fd info info.file.pos := by
        simp only [History.exec,hinfo,hwrites,Bool.false_eq_true,if_false]
      obtain ⟨r,hrefused⟩ := sysWrite_refused hwrites
      rw [hrefused,hexec]
      exact holds_pure ⟨rfl,t.moved hinfo _ at₀,rfl,Iff.rfl⟩

theorem seek_answered (fd : ℕ) (target : SeekFrom) :
    Holds ((DescOp.seek fd target).exec inode h.opens) m
      (Answered data inode h (.seek fd target)) (Stops (.seek fd target)) := by
  cases hinfo : h.opens.table fd with
  | none =>
    exact answered_unknown (.count (.error .EBADF)) t (by simp only [History.exec,hinfo])
      (by simp only [DescOp.exec,hinfo]) rfl Iff.rfl
  | some info =>
    obtain ⟨hfile,at₀⟩ := t.fileAt hinfo
    have hop : (DescOp.seek fd target).exec inode h.opens = (do
        let r ← Ext4MemFile.seek info.file target
        pure (h.opens.set fd (some { info with file := r.1 }), .count r.2)) := by
      simp only [DescOp.exec,hinfo]
    have hexec : h.exec inode (.seek fd target) = h.moved fd info
        ((Ext4MemFile.seekTarget info.file.pos h.size target).getD info.file.pos) := by
      simp only [History.exec,hinfo]
    have hseek := seek_eq (c := fd) (iSize_eq at₀.sized) info.file.pos target
    rw [← hfile] at hseek
    rw [hop]
    unfold Answered
    rw [hexec]
    refine holds_ok (bind_ok hseek) ?_
    cases Ext4MemFile.seekTarget info.file.pos h.size target with
    | none => exact ⟨rfl,t.moved hinfo _ at₀,rfl,Iff.rfl⟩
    | some q =>
      refine ⟨?_,t.moved hinfo _ at₀,rfl,Iff.rfl⟩
      change Opens.set _ _ _ = Opens.set _ _ _
      rw [hfile]
      rfl

theorem close_answered (fd : ℕ) : Holds ((DescOp.close fd).exec inode h.opens) m
      (Answered data inode h (.close fd)) (Stops (.close fd)) := by
  cases hinfo : h.opens.table fd with
  | none =>
    exact answered_unknown (.count (.error .EBADF)) t (by simp only [History.exec,hinfo])
      (by simp only [DescOp.exec,hinfo]) rfl Iff.rfl
  | some info =>
    obtain ⟨hcache,-,hlt,-⟩ := t.shows fd info hinfo
    have hop : (DescOp.close fd).exec inode h.opens = (do
        dropCache fd
        pure (h.opens.set fd none, .count (.ok 0))) := by
      simp only [DescOp.exec,hinfo,hcache]
    have hexec : h.exec inode (.close fd) = { h with opens := h.opens.set fd none } := by
      simp only [History.exec,hinfo]
    rw [hop]
    unfold Answered
    rw [hexec]
    refine (dropCache_dropped t.inv).weaken.bind ?_
    rintro _ m' ⟨inv,step,hinodes,-⟩
    refine holds_pure ⟨rfl,⟨inv,?_,t.bounded,fun c hc => ?_,fun fd' info' hfd' => ?_⟩,rfl,Iff.rfl⟩
    · unfold Holding
      rw [hinodes]
      exact t.holding
    · have hne : c ≠ fd := by
        change h.opens.next ≤ c at hc
        omega
      rw [step.caches c hne]
      exact t.fresh c hc
    · have hne : fd' ≠ fd := by
        rintro rfl
        rw [Opens.set_self] at hfd'
        cases hfd'
      rw [Opens.set_ne _ _ hne] at hfd'
      obtain ⟨h₁,h₂,h₃,hshows⟩ := t.shows fd' info' hfd'
      exact ⟨h₁,h₂,h₃,hshows.other step hne⟩

theorem exec_answered (hb : op.Bounded h) :
    Holds (op.exec inode h.opens) m (Answered data inode h op) (Stops op) := by
  cases op with
  | openAt flags => exact openAt_answered t flags
  | read fd count => exact read_answered t fd count
  | write fd buf => exact write_answered t fd buf hb
  | seek fd target => exact seek_answered t fd target
  | close fd => exact close_answered t fd

end

end Steps

section Runs

theorem runOpens_right_iff : ∀ (ops : List DescOp) (h : History) (m : Machine),
    Tracks data inode h m → BoundedAlong inode h ops →
    Holds (runOpens inode ops h.opens) m
      (fun outs _ => (∀ op ∈ ops, op.truncates = false) ∧
        (RightAlong data inode h ops outs ↔ AgreesAlong data inode h ops))
      (fun e m' => e = .outOfFrames ∧ m'.frameAllocator.free = [] ∨
        e = .deadlock ∧ ∃ op ∈ ops, op.truncates = true) := by
  intro ops
  induction ops with
  | nil =>
    intro h m _ _
    exact holds_pure ⟨fun _ hop => (List.not_mem_nil hop).elim,iff_of_true rfl trivial⟩
  | cons op ops ih =>
    intro h m t hbounded
    refine ((exec_answered t hbounded.1).onError ?_).bind ?_
    · rintro e m' (hframes | ⟨he,htrunc⟩)
      · exact .inl hframes
      · exact .inr ⟨he,op,List.mem_cons_self,htrunc⟩
    · rintro ⟨opens,out⟩ m₁ ⟨hopens,t₁,htrunc,hiff⟩
      cases hopens
      refine ((ih (h.exec inode op) m₁ t₁ hbounded.2).onError ?_).bind ?_
      · rintro e m' (hframes | ⟨he,op',hmem,hop'⟩)
        · exact .inl hframes
        · exact .inr ⟨he,op',List.mem_cons_of_mem _ hmem,hop'⟩
      · rintro outs m₂ ⟨hnone,hrest⟩
        refine holds_pure ⟨fun op' hop' => ?_,and_congr hiff hrest⟩
        rcases List.mem_cons.mp hop' with rfl | hmem
        · exact htrunc
        · exact hnone op' hmem

/-- Nothing is open yet; the page caches from `next` on are unused. -/
def History.start (next size : ℕ) : History :=
  ⟨⟨fun _ => none, next⟩, size, fun _ => none, fun _ _ => none⟩

theorem tracks_start {m : Machine} {next : ℕ} {node : Inode} (inv : CacheInv m)
    (hfresh : ∀ c, next ≤ c → m.pageCaches c = ∅) (hnode : m.inodes inode = some node)
    (hsize : node.size = data.length)
    (hread : ∀ offset len, node.read offset len = some ((data.drop offset).take len))
    (hlen : data.length < 2 ^ 64) : Tracks data inode (History.start next data.length) m :=
  ⟨inv,⟨node,hnode,hsize,hread⟩,hlen,hfresh,fun fd info hfd => by cases hfd⟩

/-- For every file on disk and every sequence of calls through separate opens: the calls return
exactly if no open truncates, or else for want of a frame, and every read has the latest bytes
exactly if its descriptor shows them. -/
theorem shared_reads_latest_iff (m : Machine) (inode next : ℕ) (node : Inode) (data : List UInt8)
    (ops : List DescOp) (inv : CacheInv m) (hfresh : ∀ c, next ≤ c → m.pageCaches c = ∅)
    (hnode : m.inodes inode = some node) (hsize : node.size = data.length)
    (hread : ∀ offset len, node.read offset len = some ((data.drop offset).take len))
    (hlen : data.length < 2 ^ 64)
    (bounded : BoundedAlong inode (History.start next data.length) ops) :
    Holds (runOpens inode ops ⟨fun _ => none, next⟩) m
      (fun outs _ => (∀ op ∈ ops, op.truncates = false) ∧
        (RightAlong data inode (History.start next data.length) ops outs ↔
          AgreesAlong data inode (History.start next data.length) ops))
      (fun e m' => e = .outOfFrames ∧ m'.frameAllocator.free = [] ∨
        e = .deadlock ∧ ∃ op ∈ ops, op.truncates = true) := by
  exact runOpens_right_iff ops _ m (tracks_start inv hfresh hnode hsize hread hlen) bounded

/-- A machine with one file of one byte. -/
def byteMachine : Machine :=
  { bootMachine 64 with
    inodes := fun _ => some ⟨1, fun offset len => some (([7].drop offset).take len)⟩ }

theorem byteMachine_tracks : Tracks [7] 0 (History.start 0 1) byteMachine := by
  obtain ⟨inv,hempty⟩ := ByteArrayFiles.boot_cached (m := byteMachine) rfl rfl
  exact tracks_start inv (fun c _ => hempty c) (rfl : byteMachine.inodes 0 = _) rfl
    (fun _ _ => rfl) (by decide)

/-- What is written is read back through the same descriptor. -/
def sameOpen : List DescOp :=
  [.openAt OpenFlags.O_RDWR, .write 0 [1], .seek 0 (.start 0), .read 0 1]

theorem shared_reads_latest_same : ∃ outs m',
    runOpens 0 sameOpen ⟨fun _ => none, 0⟩ byteMachine = .ok outs m' ∧
    BoundedAlong 0 (History.start 0 1) sameOpen ∧
    RightAlong [7] 0 (History.start 0 1) sameOpen outs := by
  have computed : returnsWith (runOpens 0 sameOpen ⟨fun _ => none,0⟩) byteMachine
      (fun _ _ => true) = true := by
    decide +kernel
  obtain ⟨outs,m',hrun,-⟩ := returnsWith_elim computed
  have t := byteMachine_tracks
  have hnode : byteMachine.inodes 0 =
      some ⟨1,fun offset len => some (([7].drop offset).take len)⟩ := rfl
  have bounded : BoundedAlong 0 (History.start 0 1) sameOpen := by
    refine ⟨trivial,fun info hinfo => ?_,trivial,trivial,trivial⟩
    cases hinfo
    decide
  have agrees : AgreesAlong [7] 0 (History.start 0 1) sameOpen := by
    refine ⟨trivial,trivial,trivial,fun info hinfo _ x b _ hx hwanted => ?_,trivial⟩
    cases hinfo
    obtain rfl : x = 0 := Nat.lt_one_iff.mp hx
    rcases hwanted with hb | ⟨hb,-⟩
    · cases hb
      rfl
    · cases hb
  refine ⟨outs,m',hrun,bounded,?_⟩
  generalize byteMachine = m at hrun t hnode
  exact ((shared_reads_latest_iff m 0 0 _ [7] sameOpen t.inv t.fresh hnode rfl
    (fun _ _ => rfl) (by decide) bounded).of_ok hrun).2.mpr agrees

/-- The byte is written, the file closed and opened again. -/
def reopened : List DescOp :=
  [.openAt OpenFlags.O_RDWR, .write 0 [1], .close 0, .openAt OpenFlags.O_RDWR, .read 1 1]

theorem shared_write_lost : ∃ outs m',
    runOpens 0 reopened ⟨fun _ => none, 0⟩ byteMachine = .ok outs m' ∧
    outs[4]? = some (.bytes (.ok (1, [7]))) ∧
    ¬ RightAlong [7] 0 (History.start 0 1) reopened outs := by
  have computed : returnsWith (runOpens 0 reopened ⟨fun _ => none,0⟩) byteMachine
      (fun outs _ => outs[4]? = some (.bytes (.ok (1,[7])))) = true := by
    decide +kernel
  obtain ⟨outs,m',hrun,hout⟩ := returnsWith_elim computed
  replace hout := of_decide_eq_true hout
  refine ⟨outs,m',hrun,hout,fun hright => ?_⟩
  obtain ⟨-,hbytes⟩ := hright.nth _ _ rfl hout _ rfl _ rfl
  exact absurd (hbytes 0 1 (by decide) (.inl rfl)) (by decide)

end Runs

end DuckOs.SharedFiles
