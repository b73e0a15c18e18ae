import DuckOs.StackModel

namespace DuckOs.StackStrings
open ExecutionRules AddressModel LittleEndianWords PathModel StackModel Function

variable {hi n top : ℕ} {m' m : Memory} {ptrs : List ℕ} {strs : List Str} {mapped : ℕ → Bool}

section Blocks

variable {m₁ m₂ : Memory} {addr lo : ℕ} {l l' : List UInt8}

def Outside (addr n : ℕ) (m m' : Memory) : Prop := ∀ a, a < addr ∨ addr + n ≤ a → m' a = m a

def Above (lo : ℕ) (m m' : Memory) : Prop := ∀ a, lo ≤ a → m' a = m a

theorem Above.refl (lo : ℕ) (m : Memory) : Above lo m m := fun _ _ => rfl

theorem Above.trans (h : Above lo m m₁) (h' : Above lo m₁ m₂) : Above lo m m₂ := fun a ha =>
  (h' a ha).trans (h a ha)

theorem Above.mono (h : Above lo m m') (hle : lo ≤ hi) : Above hi m m' := fun a ha =>
  h a (hle.trans ha)

def BytesAt (m : Memory) (addr : ℕ) (l : List UInt8) : Prop :=
  ∀ k (h : k < l.length), m (addr + k) = l[k]

theorem BytesAt.above (h : BytesAt m addr l) (hm : Above lo m m') (hle : lo ≤ addr) :
    BytesAt m' addr l := fun k hk => (hm _ (by omega)).trans (h k hk)

theorem bytesAt_cons {b : UInt8} :
    BytesAt m addr (b :: l) ↔ m addr = b ∧ BytesAt m (addr + 1) l := by
  constructor
  · intro h
    refine ⟨h 0 (by simp),fun k hk => ?_⟩
    rw [show addr + 1 + k = addr + (k + 1) by omega]
    exact h (k + 1) (by simpa using hk)
  · rintro ⟨hfirst,hrest⟩ k hk
    cases k with
    | zero => exact hfirst
    | succ k =>
      rw [show addr + (k + 1) = addr + 1 + k by omega]
      exact hrest k (by simpa using hk)

theorem bytesAt_append :
    BytesAt m addr (l ++ l') ↔ BytesAt m addr l ∧ BytesAt m (addr + l.length) l' := by
  induction l generalizing addr with
  | nil => simp [BytesAt]
  | cons b l ih =>
    rw [List.cons_append,bytesAt_cons,bytesAt_cons,ih,and_assoc,List.length_cons,
      show addr + (l.length + 1) = addr + 1 + l.length by omega]

def StringAt (m : Memory) (addr : ℕ) (l : List UInt8) : Prop :=
  BytesAt m addr l ∧ m (addr + l.length) = 0

theorem StringAt.above (h : StringAt m addr l) (hm : Above lo m m')
    (hle : lo ≤ addr) : StringAt m' addr l :=
  ⟨h.1.above hm hle,(hm _ (by omega)).trans h.2⟩

theorem storeBytes_holds (l : List UInt8) : ∀ (addr : ℕ) (m : Memory),
    Holds (storeBytes mapped addr l) m (fun _ m' => (∀ k < l.length, mapped (addr + k)) ∧
      BytesAt m' addr l ∧ Outside addr l.length m m')
      fun _ _ => ¬ ∀ k < l.length, mapped (addr + k) := by
  induction l with
  | nil =>
    intro addr m
    exact holds_pure ⟨fun k hk => (Nat.not_lt_zero k hk).elim,fun k hk =>
      (Nat.not_lt_zero k hk).elim,
      fun _ _ => rfl⟩
  | cons byte l ih =>
    intro addr m
    have hcons : (∀ k < (byte :: l).length, mapped (addr + k) = true) ↔
        mapped addr = true ∧ ∀ k < l.length, mapped (addr + 1 + k) = true := by
      rw [List.length_cons,Nat.forall_lt_succ_left,Nat.add_zero]
      simp only [Nat.add_assoc,Nat.add_comm 1]
    unfold storeBytes store
    rw [hcons]
    by_cases hmap : mapped addr
    · rw [if_pos hmap]
      refine holds_bind_ok rfl ?_
      refine (ih (addr + 1) (update m addr byte)).mono ?_ fun _ _ hn hall => hn hall.2
      rintro _ m' ⟨hmapped,hbytes,hout⟩
      refine ⟨⟨hmap,hmapped⟩,bytesAt_cons.mpr ⟨?_,hbytes⟩,fun a ha => ?_⟩
      · rw [hout addr (.inl (by omega)),update_self]
      · rw [List.length_cons] at ha
        rw [hout a (by omega),update_of_ne (by omega)]
    · rw [if_neg hmap]
      exact fun hall => hmap hall.1

theorem storeBytes_append (mapped : ℕ → Bool) (addr : ℕ) (l l' : List UInt8) :
    storeBytes mapped addr (l ++ l') =
      storeBytes mapped addr l >>= fun _ => storeBytes mapped (addr + l.length) l' := by
  induction l generalizing addr with
  | nil => rfl
  | cons b l ih =>
    rw [List.cons_append,storeBytes,storeBytes,ih,bind_assoc,List.length_cons,
      show addr + (l.length + 1) = addr + 1 + l.length by omega]

theorem length_leBytes (n w : ℕ) : (leBytes n w).length = n := by
  simp [leBytes]

theorem usizes_cons (w : ℕ) (ws : List ℕ) : usizes (w :: ws) = leBytes 8 w ++ usizes ws :=
  List.flatMap_cons

theorem usizes_append (ws ws' : List ℕ) : usizes (ws ++ ws') = usizes ws ++ usizes ws' :=
  List.flatMap_append

theorem length_usizes (ws : List ℕ) : (usizes ws).length = 8 * ws.length := by
  induction ws with
  | nil => rfl
  | cons w ws ih =>
    rw [usizes_cons,List.length_append,length_leBytes,ih,List.length_cons]
    omega

theorem storeUsizes_eq (mapped : ℕ → Bool) (addr : ℕ) (ws : List ℕ) :
    storeUsizes mapped addr ws = storeBytes mapped addr (usizes ws) := by
  induction ws generalizing addr with
  | nil => rfl
  | cons w ws ih => rw [storeUsizes,ih,usizes_cons,storeBytes_append,length_leBytes]

def readUsize (m : Memory) (addr : ℕ) : ℕ := leWord 8 fun k => m (addr + k)

theorem readUsize_bytes {w : ℕ} (h : BytesAt m addr (leBytes 8 w)) :
    readUsize m addr = w % 2 ^ 64 := by
  have hbytes : ∀ k < 8, m (addr + k) = leByte w k := fun k hk => by
    have := h k (by simpa [leBytes] using hk)
    simpa [leBytes] using this
  rw [readUsize,leWord_congr hbytes,leWord_leByte,show (256 : ℕ) ^ 8 = 2 ^ 64 by norm_num]

theorem readUsize_usizes {ws : List ℕ} (h : BytesAt m addr (usizes ws)) (i : ℕ)
    (hi : i < ws.length) : readUsize m (addr + 8 * i) = ws[i] % 2 ^ 64 := by
  induction ws generalizing addr i with
  | nil => exact (Nat.not_lt_zero i hi).elim
  | cons w ws ih =>
    rw [usizes_cons,bytesAt_append,length_leBytes] at h
    cases i with
    | zero => exact readUsize_bytes h.1
    | succ i =>
      rw [show addr + 8 * (i + 1) = addr + 8 + 8 * i by omega]
      exact ih h.2 i (by simpa using hi)

end Blocks

section Pushes

variable {sp : ℕ} {lo : ℤ}

/-- The writes end below the top of the stack. -/
structure Bounded (mapped : ℕ → Bool) (top : ℕ) : Prop where
  below : ∀ a, mapped a = true → a < top
  word : top < wordSize

/-- Everything from `lo` to the top of the stack can be written. -/
def Room (mapped : ℕ → Bool) (lo : ℤ) (top : ℕ) : Prop :=
  0 ≤ lo ∧ ∀ a : ℕ, lo ≤ a → a < top → mapped a = true

/-- A block of `n` bytes is written right below `sp`. -/
theorem store_below (hend : Bounded mapped top ∨ top < wordSize ∧ 0 ≤ lo) (hsp : sp ≤ top)
    {l : List UInt8} (hn : l.length = n) (hlo : lo + n ≤ sp) :
    Holds (storeBytes mapped (wrappingSub sp n) l) m (fun _ m' => wrappingSub sp n + n = sp ∧
      BytesAt m' (wrappingSub sp n) l ∧ Above sp m m') fun _ _ => ¬ Room mapped lo top := by
  subst hn
  refine (storeBytes_holds l (wrappingSub sp l.length) m).mono ?_ ?_
  · rintro _ m' ⟨hmap,hbytes,hout⟩
    have hend' : wrappingSub sp l.length + l.length = sp := by
      rcases hend with hb | ⟨hword,hzero⟩
      · have hword := hb.word
        have hlast : l.length = 0 ∨ wrappingSub sp l.length + (l.length - 1) < top :=
          (Nat.eq_zero_or_pos _).imp_right fun hpos => hb.below _ (hmap _ (by omega))
        unfold wrappingSub wordSize at *
        omega
      · unfold wrappingSub wordSize at *
        omega
    exact ⟨hend',hbytes,fun a ha => hout a (.inr (by omega))⟩
  · rintro _ _ hn ⟨hzero,hroom⟩
    have hword : top < wordSize := hend.elim Bounded.word And.left
    refine hn fun k hk => hroom _ ?_ ?_
    all_goals
      unfold wrappingSub wordSize at *
      omega

/-- Regions that lie one below the other, from `hi` down to `lo`. -/
def Stacked : ℕ → List (ℕ × ℕ) → ℕ → Prop
  | hi, [], lo => lo ≤ hi
  | hi, (addr, n) :: rest, lo => addr + n ≤ hi ∧ Stacked addr rest lo

theorem Stacked.append {l l' : List (ℕ × ℕ)} {mid mid' lo : ℕ} (h : Stacked hi l mid)
    (hmid : mid' ≤ mid) (h' : Stacked mid' l' lo) : Stacked hi (l ++ l') lo := by
  induction l generalizing hi with
  | nil =>
    cases l' with
    | nil => exact (show lo ≤ mid' from h').trans (hmid.trans h)
    | cons r l' => exact ⟨h'.1.trans (hmid.trans h),h'.2⟩
  | cons r l ih => exact ⟨h.1,ih h.2⟩

theorem Stacked.bounds {l : List (ℕ × ℕ)} {lo : ℕ} (h : Stacked hi l lo) :
    lo ≤ hi ∧ ∀ r ∈ l, lo ≤ r.1 ∧ r.1 + r.2 ≤ hi := by
  induction l generalizing hi with
  | nil => exact ⟨h,by simp⟩
  | cons r l ih =>
    obtain ⟨hle,hall⟩ := ih h.2
    have hr : r.1 + r.2 ≤ hi := h.1
    refine ⟨by omega,List.forall_mem_cons.mpr ⟨⟨hle,hr⟩,fun r' hr' => ?_⟩⟩
    have := hall r' hr'
    omega

def strLen (s : Str) : ℕ := (asBytes s).length + 1

def strsLen (strs : List Str) : ℕ := (strs.map strLen).sum

def strRegions (ptrs : List ℕ) (strs : List Str) : List (ℕ × ℕ) :=
  List.zipWith (fun ptr s => (ptr, strLen s)) ptrs strs

theorem pushStr_holds (hend : Bounded mapped top ∨ top < wordSize ∧ 0 ≤ lo) (hsp : sp ≤ top)
    (s : Str) (hlo : lo + strLen s ≤ sp) :
    Holds (pushStr mapped sp s) m (fun ptr m' => ptr + strLen s = sp ∧
      StringAt m' ptr (asBytes s) ∧ Above sp m m') fun _ _ => ¬ Room mapped lo top := by
  have hword : top < wordSize := hend.elim Bounded.word And.left
  unfold strLen at *
  unfold pushStr store
  by_cases hlast : mapped (wrappingSub sp 1) = true
  · have hone : wrappingSub sp 1 + 1 = sp := by
      have hlt := hend.imp (fun hb => hb.below _ hlast) And.right
      unfold wrappingSub wordSize at *
      omega
    refine (store_below hend (by omega) rfl (by omega)).bind ?_
    rintro _ m₁ ⟨hstart,hbytes,habove⟩
    rw [if_pos hlast]
    refine holds_bind_ok (t := update m₁ (wrappingSub sp 1) 0) rfl
      (holds_pure ⟨by omega,⟨fun k hk => ?_,?_⟩,fun a ha => ?_⟩)
    · rw [update_of_ne (by omega)]
      exact hbytes k hk
    · rw [hstart,update_self]
    · rw [update_of_ne (by omega)]
      exact habove a (by omega)
  · have hno : ¬ Room mapped lo top := by
      rintro ⟨hzero,hroom⟩
      refine hlast (hroom _ ?_ ?_)
      all_goals
        unfold wrappingSub wordSize at *
        omega
    refine ((holds_trivial _ m).onError fun _ _ _ => hno).bind fun _ m₁ _ => ?_
    rw [if_neg hlast]
    exact hno

def StringsAt (m : Memory) (lo : ℕ) : List ℕ → List Str → Prop :=
  List.Forall₂ fun ptr s => lo ≤ ptr ∧ ptr < wordSize ∧ StringAt m ptr (asBytes s)

theorem StringsAt.above {lo lo' : ℕ} (h : StringsAt m lo ptrs strs) (hm : Above hi m m')
    (hle : hi ≤ lo) (hlo : lo' ≤ lo) : StringsAt m' lo' ptrs strs :=
  h.imp fun _ _ hs => ⟨hlo.trans hs.1,hs.2.1,hs.2.2.above hm (hle.trans hs.1)⟩

theorem pushStrs_holds (hend : Bounded mapped top ∨ top < wordSize ∧ 0 ≤ lo) (hsp : sp ≤ top)
    (strs : List Str) (hlo : lo + strsLen strs ≤ sp) :
    Holds (pushStrs mapped sp strs) m (fun r m' => r.1 + strsLen strs = sp ∧
      StringsAt m' r.1 r.2 strs ∧ Stacked sp (strRegions r.2 strs) r.1 ∧ Above sp m m')
      fun _ _ => ¬ Room mapped lo top := by
  have hword : top < wordSize := hend.elim Bounded.word And.left
  refine (holds_foldlM (fun rest (r : ℕ × List ℕ) m' => ∃ done, done ++ rest = strs ∧
    r.1 + strsLen done = sp ∧ StringsAt m' r.1 r.2 done ∧ Stacked sp (strRegions r.2 done) r.1 ∧
    Above sp m m') ?_ strs (sp, []) m ⟨[],rfl,rfl,.nil,le_rfl,Above.refl sp m⟩).imp ?_
  · rintro s rest ⟨cur,ptrs⟩ m₁ ⟨done,hdone,hcur,hstrs,hstack,habove⟩
    have hsum : strsLen strs = strsLen done + (strLen s + strsLen rest) := by
      simp [← hdone,strsLen]
    refine (pushStr_holds hend (by omega) s (by omega)).bind ?_
    rintro ptr m₂ ⟨hptr,hstr,habove₂⟩
    refine holds_pure ⟨done ++ [s],by simpa using hdone,?_,?_,?_,
      habove.trans (habove₂.mono (by omega))⟩
    · simp only [strsLen,List.map_append,List.sum_append,List.map_cons,List.map_nil,
        List.sum_singleton] at hcur ⊢
      omega
    · exact List.rel_append (hstrs.above habove₂ le_rfl (by omega))
        (.cons ⟨le_rfl,by omega,hstr⟩ .nil)
    · unfold strRegions
      rw [List.zipWith_append (List.Forall₂.length_eq hstrs)]
      exact hstack.append le_rfl ⟨hptr.le,le_rfl⟩
  · rintro ⟨cur,ptrs⟩ m₁ ⟨done,hdone,h⟩
    rw [List.append_nil] at hdone
    exact hdone ▸ h

end Pushes

section Tables

def TableAt (m : Memory) (table : ℕ) (strs : List Str) : Prop :=
  ∀ i (h : i < strs.length), StringAt m (readUsize m (table + 8 * i)) (asBytes strs[i])

theorem tableAt_of_usizes {table lo : ℕ} (hwords : BytesAt m table (usizes ptrs))
    (hstrs : StringsAt m lo ptrs strs) : TableAt m table strs := by
  intro i hi
  obtain ⟨hlen,hget⟩ := List.forall₂_iff_get.mp hstrs
  obtain ⟨-,hword,hstr⟩ := hget i (by omega) hi
  change ptrs[i] < 2 ^ 64 at hword
  rw [readUsize_usizes hwords i (by omega),Nat.mod_eq_of_lt hword]
  exact hstr

theorem length_randomBytes (random : Fin 4 → ℕ) : (randomBytes random).length = 16 := by
  simp [randomBytes,leBytes,List.ofFn_succ]

/-- Where the block of `info` starts, in unbounded numbers. -/
def stackEnd (info : StackInfo) (top : ℕ) : ℤ :=
  let argvTop : ℤ := (top - strsLen info.envs) / 16 * 16
  let platformTop : ℤ := (argvTop - strsLen info.args) / 16 * 16
  (platformTop - 24) / 16 * 16 - 16 * (info.auxv.length + 4) - 8 * (info.envs.length + 1) -
    8 * (info.args.length + 1) - 8

/-- The words from `argc` to the last auxiliary entry. -/
def stackWords (info : StackInfo) (argv envp : List ℕ) (platformAddr randomAddr : ℕ) : List ℕ :=
  [info.args.length] ++ (argv ++ ([0] ++ (envp ++ ([0] ++
    (info.auxv ++ [(atPlatform, platformAddr), (atRandom, randomAddr),
      (atExecfn, argv.head?.getD 0), (atNull, 0)]).flatMap fun e => [e.1, e.2]))))

/-- The block lies below `top` and starts at `sp`; its regions do not overlap. -/
structure StackHolds (m : Memory) (info : StackInfo) (random : Fin 4 → ℕ) (top sp : ℕ)
    (layout : StackLayout) (argv envp : List ℕ) (platformAddr randomAddr : ℕ) : Prop where
  words : BytesAt m sp (usizes (stackWords info argv envp platformAddr randomAddr))
  args : StringsAt m sp argv info.args
  envs : StringsAt m sp envp info.envs
  name : BytesAt m platformAddr platform
  seed : BytesAt m randomAddr (randomBytes random)
  regions : Stacked top (strRegions envp info.envs ++ (strRegions argv info.args ++
    [(platformAddr, platform.length), (randomAddr, 16),
      (sp, 8 * (stackWords info argv envp platformAddr randomAddr).length)])) sp
  layout : layout = ⟨sp, sp + 8, sp + 8 * (info.args.length + 2),
    sp + 8 * (info.args.length + info.envs.length + 3)⟩

theorem buildStack_layout (info : StackInfo) (random : Fin 4 → ℕ)
    (hend : Bounded mapped top ∨ top < wordSize ∧ 0 ≤ stackEnd info top) :
    Holds (buildStack mapped info random top) m (fun r m' => ∃ argv envp platformAddr randomAddr,
      StackHolds m' info random top r.1 r.2 argv envp platformAddr randomAddr)
      fun _ _ => ¬ Room mapped (stackEnd info top) top := by
  obtain ⟨lo,hlo⟩ : ∃ lo, lo = stackEnd info top := ⟨_,rfl⟩
  rw [← hlo] at hend ⊢
  unfold stackEnd at hlo
  dsimp only at hlo
  unfold buildStack
  simp only [storeUsizes_eq]
  refine (pushStrs_holds hend le_rfl info.envs (by omega)).bind ?_
  rintro ⟨sp₁,envp⟩ m₁ ⟨hsp₁,henvs,hstack₁,-⟩
  have hal₁ : alignSp sp₁ = sp₁ / 16 * 16 := rfl
  dsimp only at hsp₁ henvs hstack₁ ⊢
  rw [show ((top : ℤ) - strsLen info.envs) / 16 * 16 = alignSp sp₁ by omega] at hlo
  refine (pushStrs_holds hend (by omega) info.args (by omega)).bind ?_
  rintro ⟨sp₂,argv⟩ m₂ ⟨hsp₂,hargs,hstack₂,habove₂⟩
  have hal₂ : alignSp sp₂ = sp₂ / 16 * 16 := rfl
  have hplat : platform.length = 8 := rfl
  have hone : ∀ w, (usizes [w]).length = 8 := fun w => length_usizes [w]
  have henvp : envp.length = info.envs.length := List.Forall₂.length_eq henvs
  have hargv : argv.length = info.args.length := List.Forall₂.length_eq hargs
  dsimp only at hsp₂ hargs hstack₂ ⊢
  rw [show ((alignSp sp₁ : ℤ) - strsLen info.args) / 16 * 16 = alignSp sp₂ by omega] at hlo
  refine (store_below hend (by omega) rfl (by omega)).bind ?_
  rintro _ m₃ ⟨hend₃,hbytes₃,habove₃⟩
  generalize wrappingSub (alignSp sp₂) platform.length = platformAddr at *
  refine (store_below hend (by omega) (length_randomBytes random) (by omega)).bind ?_
  rintro _ m₄ ⟨hend₄,hbytes₄,habove₄⟩
  generalize wrappingSub platformAddr 16 = randomAddr at *
  have hal₄ : alignSp randomAddr = randomAddr / 16 * 16 := rfl
  obtain ⟨auxv,hauxv⟩ : ∃ auxv, auxv = info.auxv ++ [(atPlatform, platformAddr),
    (atRandom, randomAddr),(atExecfn, argv.head?.getD 0),(atNull, 0)] := ⟨_,rfl⟩
  have hlen : auxv.length = info.auxv.length + 4 := by simp [hauxv]
  have hpairs : (auxv.flatMap fun e => [e.1,e.2]).length = 2 * auxv.length := by
    simp [Nat.mul_comm]
  rw [← hauxv]
  refine (store_below hend (by omega) (by rw [length_usizes]; omega) (by omega)).bind ?_
  rintro _ m₅ ⟨hend₅,hbytes₅,habove₅⟩
  generalize wrappingSub (alignSp randomAddr) (auxv.length * 16) = auxv0 at *
  refine (store_below hend (by omega) (hone 0) (by omega)).bind ?_
  rintro _ m₆ ⟨hend₆,hbytes₆,habove₆⟩
  generalize wrappingSub auxv0 8 = envpEnd at *
  refine (store_below hend (by omega) ((length_usizes envp).trans (Nat.mul_comm _ _))
    (by omega)).bind ?_
  rintro _ m₇ ⟨hend₇,hbytes₇,habove₇⟩
  generalize wrappingSub envpEnd (envp.length * 8) = envp0 at *
  refine (store_below hend (by omega) (hone 0) (by omega)).bind ?_
  rintro _ m₈ ⟨hend₈,hbytes₈,habove₈⟩
  generalize wrappingSub envp0 8 = argvEnd at *
  refine (store_below hend (by omega) ((length_usizes argv).trans (Nat.mul_comm _ _))
    (by omega)).bind ?_
  rintro _ m₉ ⟨hend₉,hbytes₉,habove₉⟩
  generalize wrappingSub argvEnd (argv.length * 8) = argv0 at *
  refine (store_below hend (by omega) (hone _) (by omega)).bind ?_
  rintro _ m' ⟨hend',hbytes',habove'⟩
  generalize wrappingSub argv0 8 = sp at *
  have a₈ : Above argvEnd m₈ m' := habove₉.trans (habove'.mono (by omega))
  have a₇ : Above envp0 m₇ m' := habove₈.trans (a₈.mono (by omega))
  have a₆ : Above envpEnd m₆ m' := habove₇.trans (a₇.mono (by omega))
  have a₅ : Above auxv0 m₅ m' := habove₆.trans (a₆.mono (by omega))
  have a₄ : Above randomAddr m₄ m' := (habove₅.mono (by omega)).trans (a₅.mono (by omega))
  have a₃ : Above platformAddr m₃ m' := habove₄.trans (a₄.mono (by omega))
  have a₂ : Above sp₂ m₂ m' := (habove₃.mono (by omega)).trans (a₃.mono (by omega))
  have a₁ : Above sp₁ m₁ m' := (habove₂.mono (by omega)).trans (a₂.mono (by omega))
  have moved : ∀ {x y : ℕ} {l : List UInt8}, BytesAt m' x l → x = y → BytesAt m' y l :=
    fun h he => he ▸ h
  have hcount : (stackWords info argv envp platformAddr randomAddr).length =
      argv.length + envp.length + 3 + 2 * auxv.length := by
    unfold stackWords
    rw [← hauxv]
    simp only [List.length_append,List.length_singleton,hpairs]
    omega
  refine holds_pure ⟨argv,envp,platformAddr,randomAddr,?_,hargs.above a₂ le_rfl (by omega),
    henvs.above a₁ le_rfl (by omega),hbytes₃.above a₃ le_rfl,hbytes₄.above a₄ le_rfl,?_,?_⟩
  · unfold stackWords
    rw [← hauxv]
    simp only [usizes_append,bytesAt_append,length_usizes,List.length_singleton]
    exact ⟨hbytes',moved (hbytes₉.above habove' le_rfl) (by omega),
      moved (hbytes₈.above a₈ le_rfl) (by omega),moved (hbytes₇.above a₇ le_rfl) (by omega),
      moved (hbytes₆.above a₆ le_rfl) (by omega),moved (hbytes₅.above a₅ le_rfl) (by omega)⟩
  · exact hstack₁.append (by omega) (hstack₂.append (by omega)
      ⟨hend₃.le,hend₄.le,by omega,le_rfl⟩)
  · rw [StackLayout.mk.injEq]
    omega

theorem buildStack_holds (hb : Bounded mapped top) (info : StackInfo) (random : Fin 4 → ℕ) :
    Holds (buildStack mapped info random top) m
      (fun r m' => TableAt m' r.2.argv info.args ∧ TableAt m' r.2.envp info.envs)
      fun _ _ => True := by
  refine (buildStack_layout info random (.inl hb)).orAny.imp ?_
  rintro r m' ⟨argv,envp,platformAddr,randomAddr,hwords,hargs,henvs,-,-,-,hlayout⟩
  have hargv : argv.length = info.args.length := List.Forall₂.length_eq hargs
  unfold stackWords at hwords
  simp only [usizes_append,bytesAt_append,length_usizes,List.length_singleton] at hwords
  obtain ⟨-,hargvAt,-,henvpAt,-⟩ := hwords
  rw [hlayout]
  refine ⟨tableAt_of_usizes hargvAt hargs,tableAt_of_usizes ?_ henvs⟩
  rw [show r.1 + 8 * (info.args.length + 2) = r.1 + 8 * 1 + 8 * argv.length + 8 * 1 by omega]
  exact henvpAt

/-- What fits below `top` is laid out there as a program expects it. -/
theorem initial_stack_holds (mapped : ℕ → Bool) (info : StackInfo) (random : Fin 4 → ℕ) (top : ℕ)
    (m : Memory) (word : top < wordSize) (room : Room mapped (stackEnd info top) top) :
    ∃ sp layout m' argv envp platformAddr randomAddr,
      buildStack mapped info random top m = .ok (sp, layout) m' ∧
      StackHolds m' info random top sp layout argv envp platformAddr randomAddr := by
  obtain ⟨⟨sp,layout⟩,m',hrun,argv,envp,platformAddr,randomAddr,h⟩ :=
    ((buildStack_layout info random (.inr ⟨word,room.1⟩)).onError fun _ _ hn => hn room).returns
  exact ⟨sp,layout,m',argv,envp,platformAddr,randomAddr,hrun,h⟩

/-- One argument, one string of the environment and one auxiliary entry. -/
def smallStack : StackInfo := ⟨[(6, 4096)], [['s', 'h']], [['A']]⟩

theorem initial_stack_small : ∃ sp layout m' argv envp platformAddr randomAddr,
    buildStack (fun _ => true) smallStack (fun _ => 0) 4096 (fun _ => 0) = .ok (sp, layout) m' ∧
    StackHolds m' smallStack (fun _ => 0) 4096 sp layout argv envp platformAddr randomAddr :=
  initial_stack_holds _ _ _ _ _ (by decide) ⟨by decide,fun _ _ _ => rfl⟩

/-- The program never starts with its stack pointer at the word that holds `argc`. -/
theorem exec_sp_never_argc (mapped : ℕ → Bool) (entry : ℕ) (info : StackInfo)
    (random : Fin 4 → ℕ) (m : Memory)
    (fits : Bounded mapped userStackTop ∨ 0 ≤ stackEnd info userStackTop) :
    ¬ ∃ cx layout m', execContext mapped entry userStackTop info random m = .ok (cx, layout) m' ∧
      cx.x 2 = layout.argc ∧ 16 ∣ cx.x 2 := by
  rintro ⟨cx,layout,m',hrun,hsp,-⟩
  obtain ⟨⟨sp,built⟩,m₁,hbuild,hpure⟩ := bind_eq_ok hrun
  cases hpure
  obtain ⟨argv,envp,platformAddr,randomAddr,h⟩ :=
    (buildStack_layout info random (fits.imp_right fun h => ⟨by decide,h⟩)).of_ok hbuild
  have hblock := (h.regions.bounds.2 (sp, 8 * (stackWords info argv envp platformAddr
    randomAddr).length) (by simp)).2
  have hargc : layout.argc = sp := congrArg StackLayout.argc h.layout
  have htop : userStackTop = layout.argc := hsp
  have hone : 1 ≤ (stackWords info argv envp platformAddr randomAddr).length := by
    simp [stackWords]
  omega

theorem exec_sp_never_argc_small : 0 ≤ stackEnd smallStack userStackTop ∧ ¬ ∃ cx layout m',
    execContext (fun _ => true) 0x10000 userStackTop smallStack (fun _ => 0) (fun _ => 0) =
      .ok (cx, layout) m' ∧ cx.x 2 = layout.argc ∧ 16 ∣ cx.x 2 :=
  ⟨by decide,exec_sp_never_argc _ _ _ _ _ (.inr (by decide))⟩

/-- It starts at the top of the stack, with the block below it. -/
theorem exec_sp_above_argc : returnsWith
    (execContext (fun _ => true) 0x10000 userStackTop smallStack fun _ => 0) (fun _ => 0)
    (fun r _ => r.1.x 2 = userStackTop && r.2.argc + 184 = r.1.x 2) = true := by
  decide +kernel

end Tables

end DuckOs.StackStrings
