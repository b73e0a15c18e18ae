import DuckOs.FatTable

namespace DuckOs.FatClusters
open ExecutionRules AddressModel BlockDevices FatLayout LinkedChains FatTable Function

variable {chains others : List (List ℕ)} {id old n i total a b e : ℕ} {fat : ℕ → Option ℕ}
  {diff : ℤ} {file : FatDiskFile} {l : List ℕ} {info : FatInfo} {s t : FatState}

section Table

variable {c : ℕ}

def vacant (total : ℕ) (fat : ℕ → Option ℕ) : Finset ℕ :=
  (Finset.Ico 2 (total + 2)).filter fun c => fat c = some 0

structure Laid (total : ℕ) (fat : ℕ → Option ℕ) (chains : List (List ℕ)) : Prop where
  linked : ∀ l ∈ chains, l ≠ [] → IsChain (links fat) l
  inside : ∀ c ∈ chains.flatten, c ∈ Finset.Ico 2 (total + 2)
  apart : chains.flatten.Nodup

theorem Laid.perm {chains' : List (List ℕ)} (h : Laid total fat chains) (hp : chains'.Perm chains) :
    Laid total fat chains' where
  linked l hl := h.linked l (hp.mem_iff.mp hl)
  inside c hc := h.inside c (hp.flatten.mem_iff.mp hc)
  apart := hp.flatten.nodup_iff.mpr h.apart

theorem links_free (h : fat c = some 0) : links fat c = .error .explicit := by
  unfold links
  rw [h]
  rfl

theorem Laid.not_free (h : Laid total fat chains) (hc : c ∈ chains.flatten) : fat c ≠ some 0 := by
  intro hfree
  obtain ⟨l,hl,hcl⟩ := List.mem_flatten.mp hc
  obtain ⟨next,hnext⟩ := (h.linked l hl (List.ne_nil_of_mem hcl)).ok_of_mem hcl
  rw [links_free hfree] at hnext
  cases hnext

theorem links_congr {fat' : ℕ → Option ℕ} (h : fat' c = fat c) : links fat' c = links fat c := by
  unfold links
  rw [h]

theorem links_end (h : fat c = some endMark) : links fat c = .ok none := by
  unfold links
  rw [h]
  rfl

theorem links_to (h : fat c = some n) (hlow : 2 ≤ n) (hhigh : n ≤ maxCluster) :
    links fat c = .ok (some n) := by
  have hstatus : status n = .next n := by
    unfold status
    unfold maxCluster at *
    rw [if_neg (by omega),if_neg (by omega),if_pos ⟨hlow,hhigh⟩]
  unfold links
  rw [h]
  simp only [Option.elim_some,nextCluster,hstatus]

def hung (fat : ℕ → Option ℕ) (a n : ℕ) : ℕ → Option ℕ :=
  update (update fat a (some n)) n (some endMark)

theorem hung_other (ha : c ≠ a) (hn : c ≠ n) : hung fat a n c = fat c := by
  unfold hung
  rw [update_of_ne hn,update_of_ne ha]

theorem Laid.hung (h : Laid total fat ((l ++ [a]) :: others)) (hn : n ∈ vacant total fat)
    (hmax : total < maxCluster) : Laid total (hung fat a n) ((l ++ [a] ++ [n]) :: others) := by
  obtain ⟨hrange,hfree⟩ := Finset.mem_filter.mp hn
  have hne : ∀ c ∈ ((l ++ [a]) :: others).flatten, c ≠ n := fun c hc hcn =>
    h.not_free hc (hcn ▸ hfree)
  have hsplit : l.Nodup ∧ a ∉ l ∧ ∀ c ∈ others.flatten, c ≠ a := by
    have hapart := h.apart
    rw [List.flatten_cons,List.nodup_append] at hapart
    obtain ⟨hown,-,hcross⟩ := hapart
    rw [List.nodup_append] at hown
    refine ⟨hown.1,fun hal => hown.2.2 a hal a (List.mem_singleton_self a) rfl,?_⟩
    intro c hc hca
    exact hcross a (List.mem_append_right _ (List.mem_singleton_self a)) c hc hca.symm
  have hsame : ∀ c ∈ l ++ others.flatten, FatClusters.hung fat a n c = fat c := by
    intro c hc
    rcases List.mem_append.mp hc with hc | hc
    · exact hung_other (fun he => hsplit.2.1 (he ▸ hc))
        (hne c (List.mem_append_left _ (List.mem_append_left _ hc)))
    · exact hung_other (hsplit.2.2 c hc) (hne c (List.mem_append_right _ hc))
  have hbounds := Finset.mem_Ico.mp hrange
  refine ⟨?_,?_,?_⟩
  · intro l' hl' hnil
    rcases List.mem_cons.mp hl' with rfl | hl'
    · apply (h.linked _ List.mem_cons_self (by simp)).extend
      · intro x hx
        exact links_congr (hsame x (List.mem_append_left _ hx))
      · apply links_to _ hbounds.1 (by omega)
        have han : a ≠ n := hne a (by simp)
        unfold FatClusters.hung
        rw [update_of_ne han,update_self]
      · exact links_end (update_self _ _ _)
    · apply (h.linked l' (List.mem_cons_of_mem _ hl') hnil).congr
      intro x hx
      exact links_congr (hsame x (List.mem_append_right _ (List.mem_flatten.mpr ⟨l',hl',hx⟩)))
  · intro c hc
    have hmem : c = n ∨ c ∈ ((l ++ [a]) :: others).flatten := by
      simp only [List.flatten_cons,List.mem_append,List.mem_singleton] at hc ⊢
      tauto
    rcases hmem with rfl | hmem
    · exact hrange
    · exact h.inside c hmem
  · have hperm : ((l ++ [a] ++ [n]) :: others).flatten.Perm
        (n :: ((l ++ [a]) :: others).flatten) := by
      rw [List.flatten_cons,List.flatten_cons,List.append_assoc]
      exact List.perm_middle
    rw [hperm.nodup_iff,List.nodup_cons]
    exact ⟨fun hmem => hne n hmem rfl,h.apart⟩

theorem vacant_hung (ha : fat a ≠ some 0) (hn : n ∈ vacant total fat) :
    vacant total (hung fat a n) = (vacant total fat).erase n := by
  obtain ⟨hrange,hfree⟩ := Finset.mem_filter.mp hn
  have hpos : n ≠ 0 := by
    have := (Finset.mem_Ico.mp hrange).1
    omega
  ext c
  unfold vacant
  rw [Finset.mem_filter,Finset.mem_erase,Finset.mem_filter]
  by_cases hcn : c = n
  · subst hcn
    simp [hung,endMark]
  · by_cases hca : c = a
    · subst hca
      unfold hung
      rw [update_of_ne hcn,update_self]
      simp [hpos,ha]
    · rw [hung_other hca hcn]
      simp [hcn]

def cutOff (fat : ℕ → Option ℕ) (a b : ℕ) : ℕ → Option ℕ :=
  update (update fat a (some endMark)) b (some 0)

theorem cutOff_other (ha : c ≠ a) (hb : c ≠ b) : cutOff fat a b c = fat c := by
  unfold cutOff
  rw [update_of_ne hb,update_of_ne ha]

theorem Laid.cutOff (h : Laid total fat ((l ++ [a] ++ [b]) :: others)) :
    fat a = some b ∧ Laid total (cutOff fat a b) ((l ++ [a]) :: others) := by
  have hapart := h.apart
  rw [List.flatten_cons,List.nodup_append] at hapart
  obtain ⟨hown,hothers,hcross⟩ := hapart
  have hab : a ≠ b := by
    rintro rfl
    simp [List.nodup_append] at hown
  have hl : ∀ c ∈ l, c ≠ a ∧ c ≠ b := by
    intro c hc
    simp only [List.nodup_append,List.mem_append,List.mem_singleton] at hown
    exact ⟨fun he => hown.1.2.2 c hc c he rfl,fun he => hown.2.2 c (.inl hc) c he rfl⟩
  have hother : ∀ c ∈ others.flatten, c ≠ a ∧ c ≠ b := by
    intro c hc
    exact ⟨fun he => hcross a (by simp) c hc he.symm,fun he => hcross b (by simp) c hc he.symm⟩
  have hsame : ∀ c, c ≠ a ∧ c ≠ b → links (FatClusters.cutOff fat a b) c = links fat c :=
    fun c hc => links_congr (cutOff_other hc.1 hc.2)
  obtain ⟨hlink,hchain⟩ := (h.linked _ List.mem_cons_self (by simp)).cut
    (g := links (FatClusters.cutOff fat a b)) (fun x hx => hsame x (hl x hx))
    (links_end (by
      unfold FatClusters.cutOff
      rw [update_of_ne hab,update_self]))
  refine ⟨(links_some hlink).1,?_,?_,?_⟩
  · intro l' hl' hnil
    rcases List.mem_cons.mp hl' with rfl | hl'
    · exact hchain
    · apply (h.linked l' (List.mem_cons_of_mem _ hl') hnil).congr
      intro x hx
      exact hsame x (hother x (List.mem_flatten.mpr ⟨l',hl',hx⟩))
  · intro c hc
    apply h.inside c
    simp only [List.flatten_cons,List.mem_append,List.mem_singleton] at hc ⊢
    tauto
  · rw [List.flatten_cons,List.nodup_append]
    refine ⟨(List.nodup_append.mp hown).1,hothers,?_⟩
    intro c hc d hd
    exact hcross c (List.mem_append_left _ hc) d hd

theorem vacant_cutOff (hab : a ≠ b) (ha : fat a ≠ some 0) (hb : b ∈ Finset.Ico 2 (total + 2)) :
    vacant total (cutOff fat a b) = insert b (vacant total fat) := by
  ext c
  unfold vacant
  rw [Finset.mem_filter,Finset.mem_insert,Finset.mem_filter]
  by_cases hcb : c = b
  · subst hcb
    simpa [cutOff] using hb
  · by_cases hca : c = a
    · subst hca
      unfold cutOff
      simp [endMark,ha,hcb]
    · rw [cutOff_other hca hcb]
      simp [hcb]

end Table

section Steps

variable {clusters : List ℕ}

theorem modifyEntry_eq (check : ℕ → Bool) (value : ℕ)
    (hold : entryAt s.device info id = some old) : modifyEntry info id check value s =
      (if check old then do
        let device ← liftPanic (writeEntry s.device info id value)
        set { s with device := device }
      else throw (.panic .assertion) : FatM Unit) s := by
  have hread : readEntry s.device info id = .ok old := by
    rw [readEntry_eq,hold]
    rfl
  exact (bind_ok rfl).trans (bind_ok (by rw [hread]; rfl))

theorem modifyEntry_ok (check : ℕ → Bool) (value : ℕ) (hold : entryAt s.device info id = some old)
    (hcheck : check old = true) (hv : value < 2 ^ 32) :
    ∃ device, modifyEntry info id check value s = .ok () { s with device := device } ∧
      entryAt device info = update (entryAt s.device info) id (some value) := by
  obtain ⟨device,hwrite,hentries⟩ := writeEntry_ok hold hv
  refine ⟨device,?_,hentries⟩
  rw [modifyEntry_eq check value hold,if_pos hcheck]
  exact bind_ok (t := s) (a := device) (by rw [hwrite]; rfl)

theorem modifyEntry_refused (check : ℕ → Bool) (value : ℕ)
    (hold : entryAt s.device info id = some old) (hcheck : check old = false) :
    modifyEntry info id check value s = .error (.panic .assertion) s := by
  rw [modifyEntry_eq check value hold,hcheck]
  rfl

theorem modifyEntry_keeps (info : FatInfo) (id : ℕ) (check : ℕ → Bool) (value : ℕ) (s : FatState) :
    Holds (modifyEntry info id check value) s
      (fun _ t => ∃ device, t = { s with device := device }) fun _ t => t = s := by
  refine holds_bind_ok rfl ?_
  cases readEntry s.device info id with
  | error reason => exact rfl
  | ok old =>
    refine holds_bind_ok rfl ?_
    split
    · cases writeEntry s.device info id value with
      | error reason => exact rfl
      | ok device => exact ⟨device,rfl⟩
    · exact rfl

theorem modifyPrev_keeps (info : FatInfo) (prevId : Option ℕ) (check : ℕ → Bool) (value : ℕ)
    (s : FatState) : Holds (modifyPrev info prevId check value) s
      (fun _ t => ∃ device, t = { s with device := device }) fun _ t => t = s := by
  cases prevId with
  | none => exact ⟨s.device,rfl⟩
  | some pId => exact modifyEntry_keeps info pId check value s

def handedOut (info : FatInfo) (s : FatState) : FatState :=
  { s with
    freeCount := decr32 s.freeCount
    nxtFree := incr32 s.nxtFree
    handed := s.handed ++ [(s.nxtFree, entryAt s.device info s.nxtFree)] }

@[simp] theorem handedOut_device (s : FatState) : (handedOut info s).device = s.device := rfl

theorem allocCluster_handed (prevId : Option ℕ) (s : FatState) :
    Holds (allocCluster info prevId) s (fun _ t => t.handed = (handedOut info s).handed)
      fun _ t => t.handed = (handedOut info s).handed := by
  refine holds_bind_ok rfl (holds_bind_ok (t := handedOut info s) (a := ()) rfl ?_)
  refine ((modifyPrev_keeps info prevId _ _ _).onError
    fun _ t ht => congrArg FatState.handed ht).bind ?_
  intro _ t ht
  obtain ⟨device,rfl⟩ := ht
  refine ((modifyEntry_keeps info s.nxtFree _ _ _).onError
    fun _ u hu => congrArg FatState.handed hu).bind ?_
  intro _ u hu
  obtain ⟨device',rfl⟩ := hu
  exact rfl

theorem allocCluster_ok {value : ℕ} (he : entryAt s.device info e = some value)
    (hend : status value = .endOfFile) (hn : entryAt s.device info s.nxtFree = some 0)
    (hlt : s.nxtFree < 2 ^ 32) :
    ∃ device, allocCluster info (some e) s =
        .ok (some s.nxtFree) { handedOut info s with device := device } ∧
      entryAt device info = hung (entryAt s.device info) e s.nxtFree := by
  have hne : s.nxtFree ≠ e := by
    intro heq
    rw [heq,he] at hn
    cases hn
    cases hend
  obtain ⟨device₁,hrun₁,hentries₁⟩ := modifyEntry_ok (s := handedOut info s)
    (fun value => status value = .endOfFile) s.nxtFree (by rw [handedOut_device]; exact he)
    (by simpa using hend) hlt
  have hfree : entryAt device₁ info s.nxtFree = some 0 := by
    rw [hentries₁,update_of_ne hne,handedOut_device]
    exact hn
  obtain ⟨device₂,hrun₂,hentries₂⟩ := modifyEntry_ok
    (s := { handedOut info s with device := device₁ }) (fun _ => true) endMark hfree rfl
      (by norm_num [endMark])
  refine ⟨device₂,?_,?_⟩
  · change (modifyPrev info (some e) (fun value => status value = .endOfFile) s.nxtFree >>= fun _ =>
      modifyEntry info s.nxtFree (fun _ => true) endMark >>= fun _ => pure (some s.nxtFree))
        (handedOut info s) = _
    exact (bind_ok hrun₁).trans (bind_ok hrun₂)
  · rw [hentries₂]
    rw [hentries₁,handedOut_device]
    rfl

end Steps

section Loops

structure Tidy (info : FatInfo) (total : ℕ) (s : FatState) (chains : List (List ℕ)) : Prop where
  laid : Laid total (entryAt s.device info) chains
  counted : s.freeCount = (vacant total (entryAt s.device info)).card
  small : total < maxCluster

theorem Tidy.card_le (h : Tidy info total s chains) :
    (vacant total (entryAt s.device info)).card < maxCluster := by
  refine (Finset.card_le_card (Finset.filter_subset _ _)).trans_lt ?_
  rw [Nat.card_Ico]
  have := h.small
  omega

structure SameRest (s t : FatState) : Prop where
  files : t.files = s.files
  handed : t.handed = s.handed

theorem Laid.last_end (h : Laid total fat ((l ++ [e]) :: others)) :
    ∃ value, fat e = some value ∧ status value = .endOfFile := by
  have hlast := (h.linked _ List.mem_cons_self (by simp)).last
  unfold links at hlast
  cases he : fat e with
  | none =>
    rw [he] at hlast
    cases hlast
  | some value =>
    rw [he] at hlast
    refine ⟨value,rfl,?_⟩
    simp only [Option.elim_some,nextCluster] at hlast
    split at hlast
    · cases hlast
    · assumption
    · cases hlast

theorem freeCluster_holds (h : Tidy info total s ((l ++ [a] ++ [b]) :: others)) :
    Holds (freeCluster info b (some a)) s
      (fun _ t => Tidy info total t ((l ++ [a]) :: others) ∧ SameRest s t)
      fun _ t => t.handed = s.handed := by
  obtain ⟨hab,hlaid⟩ := h.laid.cutOff
  have hmem : a ∈ ((l ++ [a] ++ [b]) :: others).flatten := by simp
  have hmemb : b ∈ ((l ++ [a] ++ [b]) :: others).flatten := by simp
  have hne : a ≠ b := by
    have hapart := h.laid.apart
    rintro rfl
    simp [List.nodup_append] at hapart
  obtain ⟨device₁,hrun₁,hentries₁⟩ := modifyEntry_ok (fun value => value = b) endMark hab
    (by simp) (by norm_num [endMark])
  refine holds_bind_ok hrun₁ (holds_bind_ok rfl ?_)
  obtain ⟨value,hvalue,-⟩ := h.laid.last_end
  have hentry : entryAt device₁ info b = some value := by
    rw [hentries₁,update_of_ne hne.symm]
    exact hvalue
  by_cases hmark : value = endMark
  · obtain ⟨device₂,hrun₂,hentries₂⟩ := modifyEntry_ok
      (s := { s with device := device₁, freeCount := incr32 s.freeCount })
      (fun value => value = endMark) 0 hentry (by simpa using hmark) (by norm_num)
    have htable : entryAt device₂ info = cutOff (entryAt s.device info) a b := by
      rw [hentries₂,hentries₁]
      rfl
    refine holds_ok hrun₂ ⟨⟨?_,?_,h.small⟩,rfl,rfl⟩
    · rw [htable]
      exact hlaid
    · have hnot : b ∉ vacant total (entryAt s.device info) := fun hin =>
        h.laid.not_free hmemb (Finset.mem_filter.mp hin).2
      have hcard := h.card_le
      unfold maxCluster at hcard
      rw [htable,vacant_cutOff hne (h.laid.not_free hmem) (h.laid.inside b hmemb),
        Finset.card_insert_of_notMem hnot,← h.counted]
      rw [← h.counted] at hcard
      exact Nat.mod_eq_of_lt (by omega)
  · exact holds_error (modifyEntry_refused
      (s := { s with device := device₁, freeCount := incr32 s.freeCount })
      (fun value => value = endMark) 0 hentry (by simpa using hmark)) rfl

theorem popClusters_holds {num : ℕ} (hnum : 0 < num) (r : List ℕ)
    (h : Tidy info total s (r.reverse :: others)) :
    Holds (popClusters info num r) s
      (fun r' t => Tidy info total t (r'.reverse :: others) ∧ SameRest s t ∧
        r'.reverse.head? = r.reverse.head?)
      fun _ t => t.handed = s.handed := by
  induction r generalizing s with
  | nil => exact holds_pure ⟨h,⟨rfl,rfl⟩,rfl⟩
  | cons last rest ih =>
    unfold popClusters
    split_ifs with hlong
    · cases rest with
      | nil =>
        rw [List.length_nil] at hlong
        omega
      | cons before rest =>
        rw [List.reverse_cons,List.reverse_cons] at h
        refine (freeCluster_holds h).bind ?_
        rintro _ t ⟨ht,hst⟩
        rw [← List.reverse_cons] at ht
        refine (ih ht).mono ?_ fun _ u hu => hu.trans hst.handed
        rintro r' u ⟨hu,htu,hhead⟩
        refine ⟨hu,⟨htu.files.trans hst.files,htu.handed.trans hst.handed⟩,?_⟩
        have hrev : (last :: before :: rest).reverse = (before :: rest).reverse ++ [last] :=
          List.reverse_cons
        rw [hhead,hrev,List.head?_append_of_ne_nil]
        simp
    · exact holds_pure ⟨h,⟨rfl,rfl⟩,rfl⟩

def WasFree (total : ℕ) (x : ℕ × Option ℕ) : Prop := x.1 ∈ Finset.Ico 2 (total + 2) ∧ x.2 = some 0

theorem allocCluster_tidy (h : Tidy info total s ((l ++ [e]) :: others))
    (hn : s.nxtFree ∈ vacant total (entryAt s.device info)) :
    ∃ t, allocCluster info (some e) s = .ok (some s.nxtFree) t ∧
      Tidy info total t ((l ++ [e] ++ [s.nxtFree]) :: others) ∧ t.nxtFree = s.nxtFree + 1 ∧
      t.files = s.files ∧ t.handed = s.handed ++ [(s.nxtFree, some 0)] ∧
      vacant total (entryAt t.device info) =
        (vacant total (entryAt s.device info)).erase s.nxtFree := by
  obtain ⟨hrange,hfree⟩ := Finset.mem_filter.mp hn
  have hbounds := Finset.mem_Ico.mp hrange
  have hsmall := h.small
  unfold maxCluster at hsmall
  obtain ⟨value,hvalue,hend⟩ := h.laid.last_end
  obtain ⟨device,hrun,htable⟩ := allocCluster_ok hvalue hend hfree (by omega)
  have hvacant := vacant_hung (h.laid.not_free (c := e) (by simp)) hn
  rw [← htable] at hvacant
  refine ⟨_,hrun,⟨?_,?_,h.small⟩,?_,rfl,?_,hvacant⟩
  · have hlaid := h.laid.hung hn h.small
    rw [← htable] at hlaid
    exact hlaid
  · have hpos := Finset.card_pos.mpr ⟨_,hn⟩
    rw [hvacant,Finset.card_erase_of_mem hn,← h.counted]
    rw [← h.counted] at hpos
    exact if_neg (by omega)
  · exact Nat.mod_eq_of_lt (by omega)
  · change s.handed ++ [(s.nxtFree, entryAt s.device info s.nxtFree)] = _
    rw [hfree]

theorem pushClusters_free (more : ℕ) (h : Tidy info total s ((l ++ [e]) :: others))
    (hfree : ∀ j < more, s.nxtFree + j ∈ vacant total (entryAt s.device info))
    (hgood : ∀ x ∈ s.handed, WasFree total x) :
    ∃ clusters t, pushClusters info more (l ++ [e]) s = .ok clusters t ∧
      Tidy info total t (clusters :: others) ∧ clusters.head? = (l ++ [e]).head? ∧
      t.files = s.files ∧ ∀ x ∈ t.handed, WasFree total x := by
  induction more generalizing s l e with
  | zero => exact ⟨l ++ [e],s,rfl,h,rfl,rfl,hgood⟩
  | succ more ih =>
    have hn := hfree 0 (Nat.succ_pos _)
    obtain ⟨u,hrun,hu,hnext,hfiles,hhanded,hvacant⟩ := allocCluster_tidy h hn
    have hfree' : ∀ j < more, u.nxtFree + j ∈ vacant total (entryAt u.device info) := by
      intro j hj
      rw [hvacant,hnext,Finset.mem_erase]
      have hj' := hfree (j + 1) (by omega)
      exact ⟨by omega,by rwa [Nat.add_assoc,Nat.add_comm 1 j]⟩
    have hgood' : ∀ x ∈ u.handed, WasFree total x := by
      intro x hx
      rw [hhanded,List.mem_append,List.mem_singleton] at hx
      rcases hx with hx | rfl
      · exact hgood x hx
      · exact ⟨(Finset.mem_filter.mp hn).1,rfl⟩
    obtain ⟨clusters,t,hrest,ht,hhead,htfiles,htgood⟩ := ih hu hfree' hgood'
    refine ⟨clusters,t,?_,ht,?_,htfiles.trans hfiles,htgood⟩
    · unfold pushClusters
      rw [List.getLast?_concat]
      dsimp only
      rw [if_neg (by simp)]
      exact (bind_ok hrun).trans hrest
    · rw [hhead,List.head?_append_of_ne_nil]
      simp

theorem pushClusters_grows (more : ℕ) (clusters : List ℕ) (s : FatState) :
    Holds (pushClusters info more clusters) s (fun _ t => s.handed ⊆ t.handed)
      fun _ t => s.handed ⊆ t.handed := by
  induction more generalizing clusters s with
  | zero => exact holds_pure (List.Subset.refl _)
  | succ more ih =>
    unfold pushClusters
    cases clusters.getLast? with
    | none => exact List.Subset.refl _
    | some last =>
      have hsub : s.handed ⊆ (handedOut info s).handed := List.subset_append_left _ _
      refine ((allocCluster_handed _ s).onError fun _ t ht => ?_).bind ?_
      · rw [ht]
        exact hsub
      · intro newClu t ht
        rw [← ht] at hsub
        cases newClu with
        | none => exact hsub
        | some newClu =>
          exact (ih _ t).mono (fun _ _ hu => List.Subset.trans hsub hu)
            fun _ _ hu => List.Subset.trans hsub hu

theorem pushClusters_taken (more : ℕ) (h : Tidy info total s ((l ++ [e]) :: others))
    (htaken : ∃ j < more, s.nxtFree + j ∉ vacant total (entryAt s.device info)) :
    Holds (pushClusters info more (l ++ [e])) s
      (fun _ t => ∃ x ∈ t.handed, ¬ WasFree total x) fun _ t => ∃ x ∈ t.handed,
        ¬ WasFree total x := by
  induction more generalizing s l e with
  | zero =>
    omega
  | succ more ih =>
    unfold pushClusters
    rw [List.getLast?_concat]
    dsimp only
    rw [if_neg (by simp)]
    by_cases hn : s.nxtFree ∈ vacant total (entryAt s.device info)
    · obtain ⟨u,hrun,hu,hnext,-,-,hvacant⟩ := allocCluster_tidy h hn
      refine holds_bind_ok hrun (ih hu ?_)
      obtain ⟨j,hj,hnot⟩ := htaken
      have hpos : j ≠ 0 := by
        rintro rfl
        exact hnot hn
      refine ⟨j - 1,by omega,?_⟩
      rw [hvacant,hnext,Nat.add_assoc,Nat.add_sub_cancel' (by omega)]
      exact fun hin => hnot (Finset.mem_of_mem_erase hin)
    · have hbad : ∃ x ∈ (handedOut info s).handed, ¬ WasFree total x := by
        refine ⟨_,List.mem_append_right _ (List.mem_singleton_self _),?_⟩
        exact fun hgood => hn (Finset.mem_filter.mpr hgood)
      refine ((allocCluster_handed _ s).onError fun _ t ht => ?_).bind ?_
      · rw [ht]
        exact hbad
      · intro newClu t ht
        rw [← ht] at hbad
        obtain ⟨x,hx,hnot⟩ := hbad
        cases newClu with
        | none => exact ⟨x,hx,hnot⟩
        | some newClu =>
          exact (pushClusters_grows more _ t).mono (fun _ _ hu => ⟨x,hu hx,hnot⟩)
            fun _ _ hu => ⟨x,hu hx,hnot⟩

end Loops

/-- A call of `modify_size` on one of the files. -/
structure Resize where
  file : ℕ
  diff : ℤ

variable {op : Resize}

section Statement

variable (info : FatInfo) (total : ℕ)

def needed (s : FatState) (op : Resize) : ℕ :=
  match s.files[op.file]? with
  | none => 0
  | some file =>
    if 0 < op.diff ∧ file.clusters ≠ [] then
      clusNum info (asUsize (isizeSum file.size op.diff)) - file.clusters.length
    else 0

def ChainOf (s : FatState) (file : FatDiskFile) (chain : List ℕ) : Prop :=
  if file.dataCluster = 0 then chain = []
  else findAllCluster s.device info file.dataCluster = .ok chain

structure Consistent (s : FatState) : Prop where
  apart : ∀ (i j : ℕ) f g a b, i ≠ j → s.files[i]? = some f → s.files[j]? = some g →
    ChainOf info s f a → ChainOf info s g b → a.Disjoint b
  counted : s.freeCount = (vacant total (entryAt s.device info)).card

/-- The files that the kernel has opened have their chains in memory. -/
structure Formatted (s : FatState) : Prop where
  tidy : Tidy info total s (s.files.map FatDiskFile.clusters)
  heads : ∀ file ∈ s.files,
    file.clusters.head? = if file.dataCluster = 0 then none else some file.dataCluster

/-- Every state on the way is consistent, all clusters were free when they were handed out, and a
call that cannot be served changes nothing. -/
def SafeAlong : FatState → List Resize → Prop
  | s, [] => Consistent info total s ∧ ∀ x ∈ s.handed, WasFree total x
  | s, op :: ops => Consistent info total s ∧ (∀ x ∈ s.handed, WasFree total x) ∧
    match modifySize info op.file op.diff s with
    | .ok _ t => ((vacant total (entryAt s.device info)).card < needed info s op → t = s) ∧
        SafeAlong t ops
    | .error _ t => ∀ x ∈ t.handed, WasFree total x

def Hinted (s : FatState) (op : Resize) : Prop :=
  ∀ j < needed info s op, s.nxtFree + j ∈ vacant total (entryAt s.device info)

def HintedAlong : FatState → List Resize → Prop
  | _, [] => True
  | s, op :: ops => Hinted info total s op ∧
    ∀ t, modifySize info op.file op.diff s = .ok () t → HintedAlong t ops

end Statement

section Calls

theorem clusterBytes_pos (info : FatInfo) : 0 < clusterBytes info :=
  Nat.mul_pos info.secPerClus_pos (by decide)

theorem clusterBytes_le (info : FatInfo) : clusterBytes info ≤ 65536 :=
  Nat.mul_le_mul_right sectorSize info.secPerClus_le

theorem clusNum_pos (hpos : 0 < n) (hlt : n ≤ 2 ^ 63) : 0 < clusNum info n := by
  have hbytes := clusterBytes_pos info
  have hle := clusterBytes_le info
  apply Nat.div_pos _ hbytes
  unfold wordSize
  omega

theorem asUsize_isizeSum {size : ℕ} (h : 0 < isizeSum size diff) :
    0 < asUsize (isizeSum size diff) ∧ asUsize (isizeSum size diff) ≤ 2 ^ 63 := by
  have hlt : isizeSum size diff < ((wordSize : ℕ) + 1) / 2 := Int.bmod_lt (by decide)
  unfold asUsize
  unfold wordSize at *
  omega

def Resized (info : FatInfo) (total : ℕ) (others : List (List ℕ)) (s : FatState)
    (file file' : FatDiskFile) (t : FatState) : Prop :=
  Tidy info total t (file'.clusters :: others) ∧ file'.clusters.head? = file.clusters.head? ∧
    file'.dataCluster = file.dataCluster ∧ t.files = s.files ∧ ∀ x ∈ t.handed, WasFree total x

theorem resize_holds (h : Tidy info total s (file.clusters :: others))
    (hgood : ∀ x ∈ s.handed, WasFree total x) (hfree : 0 < diff → file.clusters ≠ [] →
      ∀ j < clusNum info (asUsize (isizeSum file.size diff)) - file.clusters.length,
        s.nxtFree + j ∈ vacant total (entryAt s.device info)) :
    Holds (resize info diff file) s (Resized info total others s file)
      fun _ t => ∀ x ∈ t.handed, WasFree total x := by
  unfold resize
  dsimp only
  split
  · rename_i hshrink
    obtain ⟨hpos,hle⟩ := asUsize_isizeSum hshrink.2
    rw [← List.reverse_reverse file.clusters] at h
    refine ((popClusters_holds (clusNum_pos hpos hle) _ h).onError
      fun _ t ht => ?_).bind ?_
    · rw [ht]
      exact hgood
    · rintro rest t ⟨ht,hst,hhead⟩
      rw [List.reverse_reverse] at hhead
      refine holds_pure ⟨ht,hhead,rfl,hst.files,?_⟩
      rw [hst.handed]
      exact hgood
  · split_ifs with hgrow
    · by_cases hnil : file.clusters = []
      · rw [hnil] at h ⊢
        cases clusNum info (asUsize (isizeSum file.size diff)) - ([] : List ℕ).length with
        | zero => exact holds_pure ⟨h,by rw [hnil],rfl,rfl,hgood⟩
        | succ more => exact hgood
      · obtain ⟨l,e,hle⟩ := (List.eq_nil_or_concat' file.clusters).resolve_left hnil
        have hfree' := hfree hgrow hnil
        rw [hle] at h hfree' ⊢
        obtain ⟨clusters,t,hrun,ht,hhead,hfiles,hgood'⟩ :=
          pushClusters_free _ h hfree' hgood
        refine holds_bind_ok hrun (holds_pure ⟨ht,?_,rfl,hfiles,hgood'⟩)
        rw [hle]
        exact hhead
    · exact holds_pure ⟨h,rfl,rfl,rfl,hgood⟩

theorem calClusterSize_ok (h : Tidy info total s (file.clusters :: others))
    (hhead : file.clusters.head? = if file.dataCluster = 0 then none else some file.dataCluster) :
    ∃ size, calClusterSize info file s = .ok { file with size := size } s := by
  unfold calClusterSize
  by_cases hzero : file.dataCluster = 0
  · rw [if_pos hzero]
    exact ⟨file.size,rfl⟩
  · rw [if_neg hzero] at hhead ⊢
    obtain ⟨rest,hrest⟩ : ∃ rest, file.clusters = file.dataCluster :: rest := by
      cases hclusters : file.clusters with
      | nil => rw [hclusters] at hhead; cases hhead
      | cons c rest =>
        rw [hclusters] at hhead
        cases hhead
        exact ⟨rest,rfl⟩
    have hchain := h.laid.linked file.clusters List.mem_cons_self (by rw [hrest]; simp)
    rw [hrest] at hchain
    have hfind := findAllCluster_of_isChain hchain
    refine ⟨if file.size = 0 then (file.dataCluster :: rest).length * clusterBytes info
      else file.size,(bind_ok rfl).trans ?_⟩
    rw [hfind,← hrest]
    rfl

theorem chains_perm {files : List FatDiskFile} (hi : files[i]? = some file) (file' : FatDiskFile) :
    ((files.set i file').map FatDiskFile.clusters).Perm
      (file'.clusters :: (files.eraseIdx i).map FatDiskFile.clusters) := by
  obtain ⟨hlt,-⟩ := List.getElem?_eq_some_iff.mp hi
  exact (List.set_perm_cons_eraseIdx hlt file').map FatDiskFile.clusters

theorem Formatted.opened (h : Formatted info total s) (hi : s.files[i]? = some file) :
    Tidy info total s (file.clusters :: (s.files.eraseIdx i).map FatDiskFile.clusters) := by
  refine ⟨h.tidy.laid.perm ?_,h.tidy.counted,h.tidy.small⟩
  obtain ⟨hlt,rfl⟩ := List.getElem?_eq_some_iff.mp hi
  exact (List.getElem_cons_eraseIdx_perm hlt).map FatDiskFile.clusters

theorem Hinted.free (h : Hinted info total s op) (hi : s.files[op.file]? = some file)
    (hgrow : 0 < op.diff) (hnil : file.clusters ≠ []) :
    ∀ j < clusNum info (asUsize (isizeSum file.size op.diff)) - file.clusters.length,
      s.nxtFree + j ∈ vacant total (entryAt s.device info) := by
  intro j hj
  apply h j
  unfold needed
  rw [hi]
  dsimp only
  rwa [if_pos ⟨hgrow,hnil⟩]

theorem Formatted.modifySize (h : Formatted info total s) (hgood : ∀ x ∈ s.handed, WasFree total x)
    (hhint : Hinted info total s op) : Holds (modifySize info op.file op.diff) s
      (fun _ t => Formatted info total t ∧ ∀ x ∈ t.handed, WasFree total x)
      fun _ t => ∀ x ∈ t.handed, WasFree total x := by
  refine holds_bind_ok rfl ?_
  cases hi : s.files[op.file]? with
  | none => exact ⟨h,hgood⟩
  | some file =>
    have hmem := List.mem_of_getElem? hi
    refine (resize_holds (h.opened hi) hgood fun hgrow hnil => hhint.free hi hgrow hnil).bind ?_
    rintro file' t ⟨ht,hhead,hdata,hfiles,hgood'⟩
    rw [h.heads file hmem,← hdata] at hhead
    obtain ⟨size,hcal⟩ := calClusterSize_ok ht hhead
    refine holds_bind_ok hcal (holds_ok rfl ⟨⟨⟨ht.laid.perm ?_,ht.counted,ht.small⟩,?_⟩,hgood'⟩)
    · dsimp only
      rw [hfiles]
      exact chains_perm hi { file' with size := size }
    · intro g hg
      dsimp only at hg
      rw [hfiles] at hg
      rcases List.mem_or_eq_of_mem_set hg with hold | rfl
      · exact h.heads g hold
      · exact hhead

theorem Formatted.modifySize_taken (h : Formatted info total s) (hhint : ¬ Hinted info total s op) :
    Holds (FatTable.modifySize info op.file op.diff) s
      (fun _ t => ∃ x ∈ t.handed, ¬ WasFree total x)
      fun _ t => ∃ x ∈ t.handed, ¬ WasFree total x := by
  unfold Hinted at hhint
  push Not at hhint
  obtain ⟨j,hj,htaken⟩ := hhint
  unfold needed at hj
  refine holds_bind_ok rfl ?_
  cases hi : s.files[op.file]? with
  | none =>
    rw [hi] at hj
    exact absurd hj (Nat.not_lt_zero j)
  | some file =>
    rw [hi] at hj
    dsimp only at hj
    by_cases hgrow : 0 < op.diff ∧ file.clusters ≠ []
    · rw [if_pos hgrow] at hj
      obtain ⟨l,e,hle⟩ := (List.eq_nil_or_concat' file.clusters).resolve_left hgrow.2
      have hopen := h.opened hi
      rw [hle] at hopen hj
      have hloop := pushClusters_taken _ hopen ⟨j,hj,htaken⟩
      have hresize : Holds (resize info op.diff file) s
          (fun _ t => ∃ x ∈ t.handed, ¬ WasFree total x)
          fun _ t => ∃ x ∈ t.handed, ¬ WasFree total x := by
        unfold resize
        rw [if_neg (by omega),if_pos hgrow.1,hle]
        exact hloop.bind fun _ _ ht => holds_pure ht
      refine hresize.bind ?_
      intro file' t ht
      have hcal : Holds (calClusterSize info file') t (fun _ u => u = t) fun _ u => u = t := by
        unfold calClusterSize
        split
        · exact rfl
        · refine holds_bind_ok rfl ?_
          cases findAllCluster t.device info file'.dataCluster with
          | error stop => exact rfl
          | ok clusters => exact rfl
      refine (hcal.onError fun _ u hu => ?_).bind ?_
      · rw [hu]
        exact ht
      · intro _ u hu
        rw [hu]
        exact ht
    · rw [if_neg hgrow] at hj
      exact absurd hj (Nat.not_lt_zero j)

end Calls

section Runs

theorem Formatted.chain_eq (h : Formatted info total s) (hf : file ∈ s.files) {chain : List ℕ}
    (hchain : ChainOf info s file chain) : chain = file.clusters := by
  have hhead := h.heads file hf
  unfold ChainOf at hchain
  by_cases hzero : file.dataCluster = 0
  · rw [if_pos hzero] at hchain hhead
    rw [hchain,List.head?_eq_none_iff.mp hhead]
  · rw [if_neg hzero] at hchain hhead
    obtain ⟨rest,hrest⟩ := List.head?_eq_some_iff.mp hhead
    have hlinked := h.tidy.laid.linked file.clusters (List.mem_map_of_mem hf) (by rw [hrest]; simp)
    rw [hrest] at hlinked
    rw [findAllCluster_of_isChain hlinked] at hchain
    cases hchain
    exact hrest.symm

theorem Formatted.consistent (h : Formatted info total s) : Consistent info total s := by
  refine ⟨?_,h.tidy.counted⟩
  intro i j f g a b hij hf hg ha hb
  rw [h.chain_eq (List.mem_of_getElem? hf) ha,h.chain_eq (List.mem_of_getElem? hg) hb]
  have hapart := (List.nodup_flatten.mp h.tidy.laid.apart).2
  rw [List.pairwise_map,List.pairwise_iff_getElem] at hapart
  obtain ⟨hi,rfl⟩ := List.getElem?_eq_some_iff.mp hf
  obtain ⟨hj,rfl⟩ := List.getElem?_eq_some_iff.mp hg
  rcases Nat.lt_or_gt_of_ne hij with hlt | hlt
  · exact hapart i j hi hj hlt
  · exact (hapart j i hj hi hlt).symm

theorem Hinted.enough (h : Hinted info total s op) :
    needed info s op ≤ (vacant total (entryAt s.device info)).card := by
  have hinj : Injective (s.nxtFree + ·) := fun a b hab => Nat.add_left_cancel hab
  rw [← Finset.card_range (needed info s op),← Finset.card_image_of_injective _ hinj]
  apply Finset.card_le_card
  intro c hc
  obtain ⟨j,hj,rfl⟩ := Finset.mem_image.mp hc
  exact h j (Finset.mem_range.mp hj)

theorem SafeAlong.handed {ops : List Resize} (h : SafeAlong info total s ops) :
    ∀ x ∈ s.handed, WasFree total x := by
  cases ops with
  | nil => exact h.2
  | cons op ops => exact h.2.1

theorem Formatted.safeAlong_iff (h : Formatted info total s)
    (hgood : ∀ x ∈ s.handed, WasFree total x) (ops : List Resize) :
    SafeAlong info total s ops ↔ HintedAlong info total s ops := by
  induction ops generalizing s with
  | nil => exact iff_of_true ⟨h.consistent,hgood⟩ trivial
  | cons op ops ih =>
    constructor
    · rintro ⟨-,-,hstep⟩
      have hhint : Hinted info total s op := by
        by_contra hnot
        have hbad := h.modifySize_taken hnot
        cases hrun : FatTable.modifySize info op.file op.diff s with
        | ok _ t =>
          rw [hrun] at hstep
          obtain ⟨x,hx,hx'⟩ := hbad.of_ok hrun
          exact hx' (hstep.2.handed x hx)
        | error _ t =>
          rw [hrun] at hstep
          obtain ⟨x,hx,hx'⟩ := hbad.of_error hrun
          exact hx' (hstep x hx)
      refine ⟨hhint,?_⟩
      intro t hrun
      obtain ⟨ht,hgood'⟩ := (h.modifySize hgood hhint).of_ok hrun
      rw [hrun] at hstep
      exact (ih ht hgood').mp hstep.2
    · rintro ⟨hhint,hrest⟩
      refine ⟨h.consistent,hgood,?_⟩
      cases hrun : FatTable.modifySize info op.file op.diff s with
      | ok _ t =>
        obtain ⟨ht,hgood'⟩ := (h.modifySize hgood hhint).of_ok hrun
        exact ⟨fun hless => absurd hhint.enough (Nat.not_le_of_lt hless),
          (ih ht hgood').mpr (hrest t hrun)⟩
      | error _ t => exact (h.modifySize hgood hhint).of_error hrun

/-- From a formatted volume, a sequence of calls keeps the chains apart and hands out free clusters
only exactly if in front of every call the clusters from the hint on are free, as many as it asks
for. -/
theorem chains_apart_iff (h : Formatted info total s) (hnew : s.handed = []) (ops : List Resize) :
    SafeAlong info total s ops ↔ HintedAlong info total s ops := by
  apply h.safeAlong_iff
  rw [hnew]
  nofun

end Runs

/-- One sector in front of the table, clusters of one sector. -/
def smallInfo : FatInfo where
  sector := 1
  size := 1
  bytePerSec := 512
  secPerClus := 1
  numFat := 1
  bytePerSec_eq := rfl
  secPerClus_pos := by decide
  secPerClus_le := by decide

def smallTable : Sector :=
  ⟨[0x0FFF_FFF8, endMark, endMark, endMark, 0, 0].flatMap (LittleEndianWords.leBytes 4) ++
    List.replicate 488 0, by rw [List.length_append, List.length_replicate]; rfl⟩

def smallVolume : BlockDevice :=
  ⟨[⟨List.replicate sectorSize 0, length_zeros⟩, smallTable], by decide⟩

def twoFiles (nxtFree : ℕ) : FatState where
  device := smallVolume
  freeCount := 2
  nxtFree := nxtFree
  files := [⟨[2], 512, 2⟩, ⟨[3], 512, 3⟩]
  handed := []

theorem twoFiles_formatted (nxtFree : ℕ) : Formatted smallInfo 4 (twoFiles nxtFree) := by
  have hentry : entryAt smallVolume smallInfo 2 = some endMark ∧
      entryAt smallVolume smallInfo 3 = some endMark := by decide +kernel
  refine ⟨⟨⟨?_,?_,?_⟩,?_,by decide⟩,?_⟩
  · intro l hl _
    have hl' : l = [2] ∨ l = [3] := by simpa [twoFiles] using hl
    rcases hl' with rfl | rfl
    · exact links_end hentry.1
    · exact links_end hentry.2
  · intro c hc
    have hc' : c = 2 ∨ c = 3 := by simpa [twoFiles] using hc
    rcases hc' with rfl | rfl
    · decide
    · decide
  · change [2,3].Nodup
    decide
  · change 2 = (vacant 4 (entryAt smallVolume smallInfo)).card
    decide +kernel
  · intro file hfile
    have hfile' : file = ⟨[2],512,2⟩ ∨ file = ⟨[3],512,3⟩ := by simpa [twoFiles] using hfile
    rcases hfile' with rfl | rfl
    · rfl
    · rfl

/-- The hint names the first free cluster. -/
theorem fresh_hint_grows : Formatted smallInfo 4 (twoFiles 4) ∧
    SafeAlong smallInfo 4 (twoFiles 4) [⟨0, 512⟩] := by
  refine ⟨twoFiles_formatted 4,(chains_apart_iff (twoFiles_formatted 4) rfl _).mpr ⟨?_,?_⟩⟩
  · have hneeded : needed smallInfo (twoFiles 4) ⟨0,512⟩ = 1 := by decide +kernel
    intro j hj
    rw [hneeded] at hj
    obtain rfl : j = 0 := by omega
    change 4 ∈ vacant 4 (entryAt smallVolume smallInfo)
    decide +kernel
  · exact fun _ _ => trivial

def firstHanded : EStateM.Result Stop FatState Unit → Option (ℕ × Option ℕ)
  | .ok _ t | .error _ t => t.handed.head?

/-- The hint names the cluster of the second file. -/
theorem stale_hint_shares : Formatted smallInfo 4 (twoFiles 3) ∧
    ¬ SafeAlong smallInfo 4 (twoFiles 3) [⟨0, 512⟩] := by
  refine ⟨twoFiles_formatted 3,?_⟩
  have hfirst : firstHanded (modifySize smallInfo 0 512 (twoFiles 3)) = some (3, some endMark) := by
    decide +kernel
  rintro ⟨-,-,hstep⟩
  have hfree : ∀ t : FatState, t.handed.head? = some (3, some endMark) →
      ¬ ∀ x ∈ t.handed, WasFree 4 x := by
    intro t ht hall
    have hbad := (hall _ (List.mem_of_mem_head? ht)).2
    cases hbad
  cases hrun : modifySize smallInfo 0 512 (twoFiles 3) with
  | ok _ t =>
    rw [hrun] at hstep hfirst
    exact hfree t hfirst hstep.2.2
  | error _ t =>
    rw [hrun] at hstep hfirst
    exact hfree t hfirst hstep

end DuckOs.FatClusters
