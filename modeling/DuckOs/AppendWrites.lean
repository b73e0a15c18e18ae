import DuckOs.SharedFiles

namespace DuckOs.AppendWrites
open ExecutionRules PermissionFlags KernelMachine PageModel PageCaches Ext4FileModel OpenFiles
  SharedFiles

variable {inode : ℕ} {data : List UInt8} {h : History} {m m' : Machine} {op : DescOp}

/-- The call writes bytes through a descriptor with `O_APPEND`. -/
structure Appending (opens : Opens) (fd : ℕ) (buf : List UInt8) (info : FdInfo) : Prop where
  opened : opens.table fd = some info
  append : contains info.flags OpenFlags.O_APPEND = true
  writes : writes info.flags buf = true

/-- The bytes are put where the file ended, and the file ends behind them. -/
def Appends (inode : ℕ) (opens : Opens) (m m' : Machine) : DescOp → Prop
  | .write fd buf => ∀ info, Appending opens fd buf info → ∀ size view,
    Sized m inode size → ShowsFile m fd inode view →
    Sized m' inode (size + buf.length) ∧ ShowsFile m' fd inode (writeBytes view size buf)
  | _ => True

/-- The cursor is at the end of the file. -/
def AtEnd (inode : ℕ) (opens : Opens) (m _ : Machine) : DescOp → Prop
  | .write fd buf => ∀ info, Appending opens fd buf info → Sized m inode info.file.pos
  | _ => True

/-- The property of each call that returns. -/
def Along (inode : ℕ) (P : Opens → Machine → Machine → DescOp → Prop) :
    List DescOp → Opens → Machine → Prop
  | [], _, _ => True
  | op :: ops, opens, m => ∀ r m', op.exec inode opens m = .ok r m' →
    P opens m m' op ∧ Along inode P ops r.1 m'

theorem sized_unique {size size' : ℕ} (h : Sized m inode size) (h' : Sized m inode size') :
    size = size' := by
  obtain ⟨node,hnode,rfl,-⟩ := h
  obtain ⟨node',hnode',rfl,-⟩ := h'
  cases hnode.symm.trans hnode'
  rfl

theorem shown_unique {c : ℕ} {view view' : ℕ → UInt8} (h : ShowsFile m c inode view)
    (h' : ShowsFile m c inode view') : view = view' := by
  funext x
  rw [← Nat.div_add_mod' x 4096]
  have hlt : x % 4096 < 4096 := Nat.mod_lt x (by decide)
  cases hp : (m.pageCaches c)[x / 4096]? with
  | none => exact (h.absent _ hp _ hlt).symm.trans (h'.absent _ hp _ hlt)
  | some page => exact ((h.cached _ page hp).2 _ hlt).symm.trans ((h'.cached _ page hp).2 _ hlt)

theorem appends_iff_atEnd (t : Tracks data inode h m) (hb : op.Bounded h) {r : Opens × _}
    (hexec : op.exec inode h.opens m = .ok r m') :
    Appends inode h.opens m m' op ↔ AtEnd inode h.opens m m' op := by
  obtain ⟨-,t',-⟩ := (exec_answered t hb).of_ok hexec
  cases op with
  | write fd buf =>
    refine forall₂_congr fun info happ => ?_
    obtain ⟨hinfo,-,hwrites⟩ := happ
    have hpos := (sysWrite_writes hwrites).2.2
    rw [exec_wrote hinfo hwrites] at t'
    have hsized := t.holding.sized
    constructor
    · intro happends
      obtain ⟨hgrown,-⟩ := happends _ _ hsized (t.shows fd info hinfo).2.2.2
      have hend : h.size + buf.length = max h.size (info.file.pos + buf.length) :=
        sized_unique hgrown t'.holding.sized
      have hcursor : info.file.pos = h.size := by omega
      exact hcursor ▸ hsized
    · intro hend size view hsize hshows
      obtain rfl := sized_unique hsize hsized
      obtain rfl := shown_unique hshows (t.shows fd info hinfo).2.2.2
      have hcursor : info.file.pos = h.size := sized_unique hend hsized
      have hgrown : (h.wrote fd info buf).size = h.size + buf.length := by
        change max h.size (info.file.pos + buf.length) = _
        omega
      refine ⟨hgrown ▸ t'.holding.sized,?_⟩
      rw [← hcursor]
      exact (t'.shows fd _ (Opens.set_self _ _ _)).2.2.2.congr (overlay_wrote buf)
  | _ => exact Iff.rfl

theorem along_iff (ops : List DescOp) (t : Tracks data inode h m)
    (hb : BoundedAlong inode h ops) :
    Along inode (Appends inode) ops h.opens m ↔ Along inode (AtEnd inode) ops h.opens m := by
  induction ops generalizing h m with
  | nil => exact Iff.rfl
  | cons op ops ih =>
    refine forall₃_congr fun r m' hexec => ?_
    obtain ⟨hopens,t',-⟩ := (exec_answered t hb.1).of_ok hexec
    rw [hopens]
    exact and_congr (appends_iff_atEnd t hb.1 hexec) (ih t' hb.2)

/-- For every file on disk and every sequence of calls through separate opens of it: all writes
through descriptors with `O_APPEND` append exactly if each finds its cursor at the end. -/
theorem append_places_iff (m : Machine) (inode next : ℕ) (node : Inode) (data : List UInt8)
    (ops : List DescOp) (inv : CacheInv m) (hfresh : ∀ c, next ≤ c → m.pageCaches c = ∅)
    (hnode : m.inodes inode = some node) (hsize : node.size = data.length)
    (hread : ∀ offset len, node.read offset len = some ((data.drop offset).take len))
    (hlen : data.length < 2 ^ 64)
    (bounded : BoundedAlong inode (History.start next data.length) ops) :
    Along inode (Appends inode) ops ⟨fun _ => none, next⟩ m ↔
      Along inode (AtEnd inode) ops ⟨fun _ => none, next⟩ m :=
  along_iff ops (tracks_start inv hfresh hnode hsize hread hlen) bounded

def appendFlags : OpenFlags := OpenFlags.O_RDWR ||| OpenFlags.O_APPEND

/-- A byte is written behind the one that the file has. -/
theorem append_places_first :
    Along 0 (Appends 0) [.openAt appendFlags, .write 0 [1]] ⟨fun _ => none, 0⟩ byteMachine := by
  have bounded : BoundedAlong 0 (History.start 0 1) [.openAt appendFlags,.write 0 [1]] := by
    refine ⟨trivial,fun info hinfo => ?_,trivial⟩
    cases hinfo
    decide
  have t := byteMachine_tracks
  refine (append_places_iff byteMachine 0 0 _ [7] _ t.inv (fun c _ => t.fresh c (Nat.zero_le c)) rfl
    rfl (fun _ _ => rfl) (by decide) bounded).mpr fun r m₁ hopen => ⟨trivial,?_⟩
  obtain ⟨hopens,t₁,-⟩ := (openAt_answered t appendFlags).of_ok hopen
  rw [hopens]
  refine fun r₂ m₂ _ => ⟨fun info happ => ?_,trivial⟩
  cases happ.opened
  exact t₁.holding.sized

/-- After a seek to its start the file is overwritten. -/
theorem append_after_seek_overwrites : ∃ r₁ m₁ r₂ m₂ r₃ m₃,
    (DescOp.openAt appendFlags).exec 0 ⟨fun _ => none, 0⟩ byteMachine = .ok r₁ m₁ ∧
    (DescOp.seek 0 (.start 0)).exec 0 r₁.1 m₁ = .ok r₂ m₂ ∧
    (DescOp.write 0 [1]).exec 0 r₂.1 m₂ = .ok r₃ m₃ ∧
    (m₃.inodes 0).map Inode.size = some 1 ∧
    ¬ Appends 0 r₂.1 m₂ m₃ (.write 0 [1]) := by
  have computed : returnsWith ((DescOp.openAt appendFlags).exec 0 ⟨fun _ => none,0⟩) byteMachine
      (fun r₁ m₁ => returnsWith ((DescOp.seek 0 (.start 0)).exec 0 r₁.1) m₁ fun r₂ m₂ =>
        returnsWith ((DescOp.write 0 [1]).exec 0 r₂.1) m₂ fun _ m₃ =>
          (m₃.inodes 0).map Inode.size == some 1) = true := by
    decide +kernel
  obtain ⟨r₁,m₁,h₁,computed⟩ := returnsWith_elim computed
  obtain ⟨r₂,m₂,h₂,computed⟩ := returnsWith_elim computed
  obtain ⟨r₃,m₃,h₃,hsize⟩ := returnsWith_elim computed
  refine ⟨r₁,m₁,r₂,m₂,r₃,m₃,h₁,h₂,h₃,beq_iff_eq.mp hsize,fun happends => ?_⟩
  obtain ⟨hopens₁,t₁,-⟩ := (openAt_answered byteMachine_tracks _).of_ok h₁
  rw [hopens₁] at h₂
  obtain ⟨hopens₂,t₂,-⟩ := (seek_answered t₁ _ _).of_ok h₂
  obtain ⟨hgrown,-⟩ := happends _ ⟨by rw [hopens₂]; rfl,by decide,by decide⟩ _ _
    t₂.holding.sized (t₂.shows 0 _ rfl).2.2.2
  obtain ⟨node,hnode,hgrown,-⟩ := hgrown
  rw [hnode,beq_iff_eq,Option.map_some,Option.some.injEq,hgrown] at hsize
  cases hsize

end DuckOs.AppendWrites
