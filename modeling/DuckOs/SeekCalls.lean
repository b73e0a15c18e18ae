import DuckOs.OpenFiles

namespace DuckOs.SeekCalls
open ExecutionRules AddressModel KernelMachine PageModel VirtMemoryModel Ext4FileModel OpenFiles

/-- One call; `flags` are those of the descriptor, if there is one. -/
structure SeekCall where
  flags : Option OpenFlags
  offset : BitVec 64
  whence : UInt8

variable {m : Machine} {file : Option OpenFile} {size : ℕ}

/-- The console files, here `none`, have no metadata. The inode of a pipe is gone. -/
def fileSeek : Option OpenFile → SeekFrom → Kernel (Option OpenFile × Except Errno ℕ)
  | none, _ => throw .todo
  | some file, whence => do
    let r ← Ext4MemFile.seek file whence
    pure (some r.1, r.2)

def sysLseek (call : SeekCall) (file : Option OpenFile) :
    Kernel (Option OpenFile × Except Errno ℕ) :=
  match call.flags with
  | none => pure (file, .error .EBADF)
  | some flags =>
    if flags.isReadable = false then pure (file, .error .EACCES)
    else if call.whence = 0 then
      if call.offset.toInt < 0 then pure (file, .error .EINVAL)
      else fileSeek file (.start call.offset.toNat)
    else if call.whence = 1 then fileSeek file (.current call.offset.toInt)
    else if call.whence = 2 then fileSeek file (.fromEnd call.offset.toInt)
    else pure (file, .error .EINVAL)

/-- The sum that the call asks for. -/
def SeekCall.target (call : SeekCall) (pos size : ℕ) : ℤ :=
  (if call.whence = 1 then pos else if call.whence = 2 then size else 0 : ℕ) + call.offset.toInt

/-- The call is not refused: its descriptor is readable, and it asks for a position from the start
that is not negative, or for one from the cursor or the end. -/
def SeekCall.Seeks (call : SeekCall) : Prop :=
  (∃ flags, call.flags = some flags ∧ flags.isReadable = true) ∧
    (call.whence = 0 ∧ 0 ≤ call.offset.toInt ∨ call.whence = 1 ∨ call.whence = 2)

/-- An error leaves the position, and a number returned is the exact sum and no error code. -/
def Exact (m : Machine) (call : SeekCall) (file : Option OpenFile)
    (r : Option OpenFile × Except Errno ℕ) : Prop :=
  match r.2 with
  | .error _ => r.1 = file
  | .ok pos => ∃ (old new : OpenFile) (node : Inode), file = some old ∧ r.1 = some new ∧
      m.inodes old.inode = some node ∧ new.pos = pos ∧
      (pos : ℤ) = call.target old.pos node.size ∧ pos < 2 ^ 63

/-- The file has its inode, and the sum fits. -/
def Fits (m : Machine) (call : SeekCall) (file : Option OpenFile) : Prop :=
  call.Seeks → ∃ (old : OpenFile) (node : Inode), file = some old ∧
    m.inodes old.inode = some node ∧ call.target old.pos node.size < 2 ^ 63

def ExactAlong (m : Machine) : Option OpenFile → List SeekCall → Prop
  | _, [] => True
  | file, call :: calls => ∃ r, sysLseek call file m = .ok r m ∧ Exact m call file r ∧
      ExactAlong m r.1 calls

def FitsAlong (m : Machine) : Option OpenFile → List SeekCall → Prop
  | _, [] => True
  | file, call :: calls => Fits m call file ∧
      ∀ r, sysLseek call file m = .ok r m → FitsAlong m r.1 calls

/-- The new position is the sum if that fits, and there is none only for a sum that fits. -/
def Reaches (target : ℤ) : Option ℕ → Prop
  | none => target < 2 ^ 63
  | some pos => ((pos : ℤ) = target ∧ pos < 2 ^ 63) ↔ target < 2 ^ 63

theorem moveBy_reaches (base : ℕ) (delta : ℤ) :
    Reaches (base + delta) (Ext4MemFile.moveBy base delta) := by
  unfold Ext4MemFile.moveBy wrappingAdd wordSize
  split_ifs <;> dsimp only [Reaches] <;> omega

/-- A call is refused, or it is a `seek` for its sum. -/
theorem sysLseek_cases (call : SeekCall) (file : Option OpenFile) :
    (¬ call.Seeks ∧ ∃ e, sysLseek call file = pure (file, .error e)) ∨
    call.Seeks ∧ ∃ whence, sysLseek call file = fileSeek file whence ∧
      ∀ pos size, Reaches (call.target pos size) (Ext4MemFile.seekTarget pos size whence) := by
  unfold sysLseek SeekCall.Seeks
  cases call.flags with
  | none => exact .inl ⟨fun h => by simp at h,_,rfl⟩
  | some flags =>
    dsimp only
    cases hread : flags.isReadable with
    | false => exact .inl ⟨by simp [hread],_,rfl⟩
    | true =>
      have hreadable : ∃ flags', some flags = some flags' ∧ flags'.isReadable = true :=
        ⟨flags,rfl,hread⟩
      rw [if_neg (by decide)]
      split_ifs with hstart hneg hcur hend
      · exact .inl ⟨by simp [hstart,hneg],_,rfl⟩
      · refine .inr ⟨⟨hreadable,.inl ⟨hstart,not_lt.mp hneg⟩⟩,_,rfl,fun pos size => ?_⟩
        have hnat : (call.offset.toNat : ℤ) = call.offset.toInt := by
          have hword := call.offset.isLt
          rw [BitVec.toInt_eq_toNat_cond] at hneg ⊢
          split_ifs at hneg ⊢ <;> omega
        simp [SeekCall.target,hstart,Ext4MemFile.seekTarget,← hnat,Reaches]
      · refine .inr ⟨⟨hreadable,.inr (.inl hcur)⟩,_,rfl,fun pos size => ?_⟩
        simp only [SeekCall.target,hcur,if_pos,Ext4MemFile.seekTarget]
        exact moveBy_reaches pos call.offset.toInt
      · refine .inr ⟨⟨hreadable,.inr (.inr hend)⟩,_,rfl,fun pos size => ?_⟩
        simp only [SeekCall.target,hend,if_pos,Ext4MemFile.seekTarget]
        exact moveBy_reaches size call.offset.toInt
      · exact .inl ⟨by simp [hstart,hcur,hend],_,rfl⟩

theorem fileSeek_exact (call : SeekCall) (file : OpenFile) (whence : SeekFrom)
    (hsum : ∀ pos size, Reaches (call.target pos size) (Ext4MemFile.seekTarget pos size whence)) :
    (∃ r, fileSeek (some file) whence m = .ok r m ∧ Exact m call (some file) r) ↔
      ∃ node, m.inodes file.inode = some node ∧ call.target file.pos node.size < 2 ^ 63 := by
  obtain ⟨c,inode,pos⟩ := file
  cases hnode : m.inodes inode with
  | none =>
    have hrun : fileSeek (some ⟨c,inode,pos⟩) whence m = .error .unwrapNone m := by
      simp [fileSeek,Ext4MemFile.seek,iSize,bind_assoc,get_bind,hnode]
      rfl
    rw [hrun]
    simp
  | some node =>
    have hreach := hsum pos node.size
    have hrun : fileSeek (some ⟨c,inode,pos⟩) whence m = _ :=
      bind_ok (seek_eq (iSize_node hnode) pos whence)
    rw [hrun]
    cases hpos : Ext4MemFile.seekTarget pos node.size whence with
    | none =>
      rw [hpos] at hreach
      exact iff_of_true ⟨_,rfl,rfl⟩ ⟨node,rfl,hreach⟩
    | some q =>
      rw [hpos] at hreach
      constructor
      · rintro ⟨_,⟨⟩,old,new,node',⟨⟩,⟨⟩,hnode',-,hexact⟩
        cases hnode.symm.trans hnode'
        exact ⟨node,rfl,hreach.mp hexact⟩
      · rintro ⟨_,⟨⟩,hlt⟩
        exact ⟨_,rfl,_,_,node,rfl,rfl,hnode,rfl,hreach.mpr hlt⟩

theorem sysLseek_exact (call : SeekCall) (file : Option OpenFile) :
    (∃ r, sysLseek call file m = .ok r m ∧ Exact m call file r) ↔ Fits m call file := by
  unfold Fits
  obtain ⟨hno,e,hrun⟩ | ⟨hseeks,whence,hrun,hsum⟩ := sysLseek_cases call file <;> rw [hrun]
  · exact iff_of_true ⟨_,rfl,rfl⟩ fun h => absurd h hno
  · rw [forall_prop_of_true hseeks]
    cases file with
    | none => exact iff_of_false (by rintro ⟨_,⟨⟩,-⟩) (by simp)
    | some old =>
      rw [fileSeek_exact call old whence hsum]
      simp

/-- Every call of a sequence is exact exactly if each file has its inode and each sum is below
`2 ^ 63`. -/
theorem lseek_exact_iff (m : Machine) (file : Option OpenFile) (calls : List SeekCall) :
    ExactAlong m file calls ↔ FitsAlong m file calls := by
  induction calls generalizing file with
  | nil => exact Iff.rfl
  | cons call calls ih =>
    constructor
    · rintro ⟨r,hrun,hexact,halong⟩
      refine ⟨(sysLseek_exact call file).mp ⟨r,hrun,hexact⟩,fun r' hrun' => ?_⟩
      cases hrun.symm.trans hrun'
      exact (ih r.1).mp halong
    · rintro ⟨hfits,halong⟩
      obtain ⟨r,hrun,hexact⟩ := (sysLseek_exact call file).mpr hfits
      exact ⟨r,hrun,hexact,(ih r.1).mpr (halong r hrun)⟩

/-- A machine whose files are empty. -/
def emptyFiles : Machine :=
  { coldMachine 0 0 with inodes := fun _ => some ⟨0, fun _ _ => some []⟩ }

theorem lseek_exact_back : ExactAlong emptyFiles (some ⟨0, 0, 0⟩)
    [⟨some OpenFlags.O_RDONLY, 5, 0⟩, ⟨some OpenFlags.O_RDONLY, -3, 1⟩] := by
  refine (lseek_exact_iff emptyFiles (some ⟨0,0,0⟩) _).mpr ⟨fun _ => ⟨_,_,rfl,rfl,by decide⟩,?_⟩
  rintro r hrun
  cases hrun
  exact ⟨fun _ => ⟨_,_,rfl,rfl,by decide⟩,fun _ _ => trivial⟩

/-- The second of two calls returns a word that reads as a negative number. -/
theorem lseek_passes_limit : ∃ r m, sysLseek ⟨some OpenFlags.O_RDONLY, 1, 1⟩
      (some ⟨0, 0, 2 ^ 63 - 1⟩) emptyFiles = .ok (r, .ok (2 ^ 63)) m ∧
    ¬ ExactAlong emptyFiles (some ⟨0, 0, 0⟩)
      [⟨some OpenFlags.O_RDONLY, 0x7fffffffffffffff, 0⟩, ⟨some OpenFlags.O_RDONLY, 1, 1⟩] := by
  refine ⟨_,_,rfl,?_⟩
  rintro ⟨r,hrun,-,r',hrun',hexact,-⟩
  cases hrun
  cases hrun'
  obtain ⟨_,_,_,-,-,-,-,-,hlt⟩ := hexact
  exact absurd hlt (by decide)

end DuckOs.SeekCalls
