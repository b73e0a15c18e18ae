import DuckOs.FileCreation
import DuckOs.StackStrings

namespace DuckOs.ByteStrings
open ExecutionRules PathModel VfsModel VfsTrees VfsLookups LookupEffects FdTables DirentModel
  DirectoryReads FileCreation StackModel StackStrings Function
open Ext4FileModel (OpenFlags)

variable {δ : Type} {b : List UInt8} {x : UInt8} {c : Char} {t dirPath : Str} {d : Dentry}
  {s₁ s₃ s₂ s s' : Vfs δ} {dev : Prop} {lw : Lwext4 δ} {fa ino : ℕ}

def Ascii (b : List UInt8) : Prop := ∀ x ∈ b, x.toNat < 128

instance decidableAscii (b : List UInt8) : Decidable (Ascii b) :=
  List.decidableBAll (fun x : UInt8 => x.toNat < 128) b

def byteChar (x : UInt8) : Char := Char.ofNat x.toNat

theorem toNat_byteChar (x : UInt8) : (byteChar x).toNat = x.toNat := by
  have hlt : x.toNat < 256 := x.toNat_lt
  have hvalid : x.toNat.isValidChar := .inl (by omega)
  simp only [byteChar,Char.ofNat,dif_pos hvalid,Char.ofNatAux]
  rfl

theorem byteChar_injective : Injective byteChar := fun x y h =>
  UInt8.toNat_inj.mp (by rw [← toNat_byteChar,← toNat_byteChar,h])

theorem cPtrToString_eq (h : 0 ∉ b) : cPtrToString b = b.map byteChar := by
  have hall : b.takeWhile (fun ch => ch ≠ 0) = b :=
    List.takeWhile_eq_self_iff.mpr fun x hx => decide_eq_true fun hzero => h (hzero ▸ hx)
  rw [cPtrToString,hall]
  rfl

theorem encode_ascii (h : x.toNat < 128) : String.utf8EncodeChar (byteChar x) = [x] := by
  have hle : x.toNat ≤ 127 := by omega
  simp [String.utf8EncodeChar,toNat_byteChar,hle]

theorem length_encode (h : 128 ≤ x.toNat) : (String.utf8EncodeChar (byteChar x)).length = 2 := by
  have hlt : x.toNat < 256 := x.toNat_lt
  have hnot : ¬ x.toNat ≤ 127 := by omega
  have hle : x.toNat ≤ 2047 := by omega
  simp [String.utf8EncodeChar,toNat_byteChar,hnot,hle]

theorem char_of_byte (hx : x ∈ String.utf8EncodeChar c) (hlt : x.toNat < 128) : c = byteChar x := by
  have hcode : x.toNat = c.toNat := by
    unfold String.utf8EncodeChar at hx
    dsimp only at hx
    split_ifs at hx with h
    · rw [List.mem_singleton] at hx
      rw [hx]
      exact UInt8.toNat_ofNat_of_lt' (by simp only [UInt8.size]; omega)
    all_goals
      simp only [List.mem_cons,List.not_mem_nil,or_false] at hx
      rcases hx with rfl | rfl | rfl | rfl <;> simp at hlt <;> omega
  exact Char.ext (UInt32.toNat_inj.mp (hcode.symm.trans (toNat_byteChar x).symm))

theorem length_asBytes (b : List UInt8) :
    (asBytes (b.map byteChar)).length = b.length + b.countP (fun x => 128 ≤ x.toNat) := by
  induction b with
  | nil => rfl
  | cons x b ih =>
    rw [asBytes,List.map_cons,List.flatMap_cons,List.length_append,List.countP_cons,
      List.length_cons]
    rw [asBytes] at ih
    by_cases hx : 128 ≤ x.toNat
    · rw [length_encode hx,ih,if_pos (decide_eq_true hx)]
      omega
    · rw [encode_ascii (by omega),ih,if_neg (by simpa using hx),List.length_singleton]
      omega

theorem asBytes_of_ascii (h : Ascii b) : asBytes (b.map byteChar) = b := by
  induction b with
  | nil => rfl
  | cons x b ih =>
    have hrest := ih fun y hy => h y (List.mem_cons_of_mem x hy)
    rw [asBytes,List.map_cons,List.flatMap_cons,encode_ascii (h x List.mem_cons_self)]
    exact congrArg (x :: ·) hrest

theorem asBytes_eq_iff (b : List UInt8) : asBytes (b.map byteChar) = b ↔ Ascii b := by
  refine ⟨fun h x hx => ?_,asBytes_of_ascii⟩
  have hlen := length_asBytes b
  rw [h] at hlen
  have hnone : b.countP (fun x => 128 ≤ x.toNat) = 0 := by omega
  simpa using List.countP_eq_zero.mp hnone x hx

theorem zero_notMem_asBytes (h : 0 ∉ b) : 0 ∉ asBytes (b.map byteChar) := by
  intro hzero
  obtain ⟨c,hc,hmem⟩ := List.mem_flatMap.mp hzero
  obtain ⟨x,hx,rfl⟩ := List.mem_map.mp hc
  have hchar := byteChar_injective (char_of_byte hmem (by decide))
  exact h (hchar ▸ hx)

theorem encode_ne_nil (c : Char) : String.utf8EncodeChar c ≠ [] := fun h => by
  have hlen := String.length_utf8EncodeChar c
  have hpos := c.utf8Size_pos
  rw [h,List.length_nil] at hlen
  omega

theorem head?_of_asBytes (h : (asBytes t).head? = some x) (hlt : x.toNat < 128) :
    t.head? = some (byteChar x) := by
  cases t with
  | nil => cases h
  | cons c t =>
    rw [asBytes,List.flatMap_cons,List.head?_append_of_ne_nil _ (encode_ne_nil c)] at h
    rw [List.head?_cons,char_of_byte (List.mem_of_head? h) hlt]

theorem getLast?_of_asBytes (h : (asBytes t).getLast? = some x) (hlt : x.toNat < 128) :
    t.getLast? = some (byteChar x) := by
  induction t using List.reverseRecOn with
  | nil => cases h
  | append_singleton t c _ =>
    rw [asBytes,List.flatMap_append,List.flatMap_singleton,
      List.getLast?_append_of_ne_nil _ (encode_ne_nil c)] at h
    rw [List.getLast?_concat,char_of_byte (List.mem_of_getLast? h) hlt]

theorem slash_mem_map : '/' ∈ b.map byteChar ↔ 0x2f ∈ b := by
  rw [show '/' = byteChar 0x2f from rfl]
  exact List.mem_map_of_injective byteChar_injective

theorem validName_bytes (hne : b ≠ []) (hslash : 0x2f ∉ b) : ValidName (b.map byteChar) :=
  ⟨by simpa using hne,slash_mem_map.not.mpr hslash⟩

/-- Nothing or a slash is in front. -/
def Behind (front : Str) : Prop := front = [] ∨ front.getLast? = some '/'

theorem dentryName_behind {front : Str} (hfront : Behind front) (h : ValidName t) :
    dentryName (front ++ t) = t := by
  rcases hfront with rfl | hlast
  · exact dentryName_append (l := []) (components_name h)
  · obtain ⟨dirs,rfl⟩ := List.getLast?_eq_some_iff.mp hlast
    refine dentryName_append (l := components dirs) ?_
    rw [List.append_assoc,List.singleton_append,components_append,components_name h]

/-- A path that does not end with a slash has a last name. -/
theorem exists_behind (hlast : t.getLast? = some c) (hc : c ≠ '/') :
    ∃ front name, t = front ++ name ∧ Behind front ∧ ValidName name ∧ name.getLast? = some c := by
  induction t with
  | nil => cases hlast
  | cons x t ih =>
    cases ht : t.getLast? with
    | none =>
      rw [List.getLast?_eq_none_iff] at ht
      subst ht
      cases hlast
      exact ⟨[],[x],rfl,.inl rfl,⟨by simp,by simpa using hc.symm⟩,rfl⟩
    | some y =>
      rw [List.getLast?_cons,ht] at hlast
      cases hlast
      obtain ⟨front,name,rfl,hfront,hname,hlast⟩ := ih ht
      by_cases hend : front = [] ∧ x ≠ '/'
      · refine ⟨[],x :: name,by rw [hend.1]; rfl,.inl rfl,⟨by simp,?_⟩,?_⟩
        · simp [hname.noSlash,hend.2.symm]
        · rw [List.getLast?_cons,hlast]
          rfl
      · refine ⟨x :: front,name,rfl,.inr ?_,hname,hlast⟩
        rcases hfront with rfl | hslash
        · simpa using hend
        · rw [List.getLast?_cons,hslash]
          rfl

/-- What is left of a relative path. -/
def trimmed (ptr : List UInt8) : Str := formatRelPath (formatPath (ptr.map byteChar))

/-- Where a relative path starts. -/
def startPath (dirPath path : Str) : Str :=
  if ['.', '.', '/'] <+: formatPath path then parentPath dirPath else dirPath

theorem getLast?_formatPath {path : Str} (h : (formatPath path).getLast? = some c) :
    c ≠ '/' ∧ c ≠ '\t' ∧ c ≠ '\n' := by
  unfold formatPath at h
  have hne : path.rdropWhile (fun c => c = '/' || c = '\t' || c = '\n') ≠ [] := by
    intro hnil
    rw [hnil] at h
    cases h
  have hnot := List.rdropWhile_last_not _ _ hne
  rw [List.getLast?_eq_some_getLast hne,Option.some.injEq] at h
  rw [h] at hnot
  simpa [and_assoc] using hnot

theorem getLast?_trimmed {ptr : List UInt8} (h : (trimmed ptr).getLast? = some c) :
    c ≠ '/' ∧ c ≠ '\t' ∧ c ≠ '\n' := by
  obtain ⟨front,hfront⟩ : trimmed ptr <:+ formatPath (ptr.map byteChar) := List.dropWhile_suffix _
  have hlast : (formatPath (ptr.map byteChar)).getLast? = some c := by
    rw [← hfront,List.getLast?_append,h,Option.some_or]
  exact getLast?_formatPath hlast

section Spelling

variable {before : List UInt8}

def Dots (before : List UInt8) : Prop := ∀ x ∈ before, x = 0x2e ∨ x = 0x2f

/-- Nothing is cut off a name behind `before` in a relative path. -/
def Untrimmed (before b : List UInt8) : Prop :=
  b.getLast? ≠ some 0x09 ∧ b.getLast? ≠ some 0x0a ∧ (Dots before → b.head? ≠ some 0x2e)

theorem behind_map (h : before = [] ∨ before.getLast? = some 0x2f) :
    Behind (before.map byteChar) := by
  rcases h with rfl | hlast
  · exact .inl rfl
  · exact .inr (by rw [List.getLast?_map,hlast]; rfl)

theorem formatPath_bytes (hne : b ≠ []) (hslash : 0x2f ∉ b) (htab : b.getLast? ≠ some 0x09)
    (hline : b.getLast? ≠ some 0x0a) :
    formatPath ((before ++ b).map byteChar) = (before ++ b).map byteChar := by
  obtain ⟨front,x,rfl⟩ := (List.eq_nil_or_concat' b).resolve_left hne
  rw [List.getLast?_concat] at htab hline
  rw [← List.append_assoc,List.map_append,List.map_singleton,formatPath,List.rdropWhile_concat_neg]
  simp only [Bool.or_eq_true,decide_eq_true_eq,not_or]
  refine ⟨⟨fun hx => ?_,fun hx => ?_⟩,fun hx => ?_⟩
  · have hbyte : x = 0x2f := byteChar_injective hx
    simp [hbyte] at hslash
  · exact htab (congrArg some (byteChar_injective hx))
  · exact hline (congrArg some (byteChar_injective hx))

/-- The dots and slashes in front are cut off `before`, or else off the name. -/
theorem trimmed_cases (hne : b ≠ []) (hslash : 0x2f ∉ b) (htab : b.getLast? ≠ some 0x09)
    (hline : b.getLast? ≠ some 0x0a) (hbefore : before = [] ∨ before.getLast? = some 0x2f) :
    (¬ Dots before ∧ ∃ front, Behind front ∧ trimmed (before ++ b) = front ++ b.map byteChar) ∨
    Dots before ∧ trimmed (before ++ b) = formatRelPath (b.map byteChar) := by
  have hdots : Dots before ↔
      (before.map byteChar).dropWhile (fun c => c = '.' || c = '/') = [] := by
    rw [List.dropWhile_eq_nil_iff,List.forall_mem_map]
    refine forall₂_congr fun x _ => ?_
    rw [Bool.or_eq_true,decide_eq_true_eq,decide_eq_true_eq]
    exact or_congr (byteChar_injective.eq_iff (b := 0x2e)).symm
      (byteChar_injective.eq_iff (b := 0x2f)).symm
  rw [trimmed,formatPath_bytes hne hslash htab hline,List.map_append,formatRelPath,
    List.dropWhile_append,hdots]
  cases hcut : (before.map byteChar).dropWhile (fun c => c = '.' || c = '/') with
  | nil => exact .inr ⟨rfl,rfl⟩
  | cons x cut =>
    refine .inl ⟨List.cons_ne_nil x cut,x :: cut,.inr ?_,rfl⟩
    obtain ⟨front,hfront⟩ := List.dropWhile_suffix (l := before.map byteChar)
      (fun c => c = '.' || c = '/')
    rw [hcut] at hfront
    have hlast := (behind_map hbefore).resolve_left fun hnil => by simp [hnil] at hfront
    rwa [← hfront,List.getLast?_append_of_ne_nil _ (List.cons_ne_nil x cut)] at hlast

theorem head?_formatRelPath (path : Str) : (formatRelPath path).head? ≠ some '.' := by
  intro h
  have hnot := List.head?_dropWhile_not (fun c => c = '.' || c = '/') path
  rw [show List.dropWhile _ path = formatRelPath path from rfl,h] at hnot
  simp at hnot

theorem formatRelPath_bytes (hslash : 0x2f ∉ b) (hdot : b.head? ≠ some 0x2e) :
    formatRelPath (b.map byteChar) = b.map byteChar := by
  cases b with
  | nil => rfl
  | cons x b =>
    rw [List.map_cons,formatRelPath,List.dropWhile_cons_of_neg]
    simp only [Bool.or_eq_true,decide_eq_true_eq,not_or]
    refine ⟨fun hx => ?_,fun hx => ?_⟩
    · exact hdot (congrArg some (byteChar_injective hx))
    · have hbyte : x = 0x2f := byteChar_injective hx
      simp [hbyte] at hslash

theorem asBytes_trimmed_iff (hne : b ≠ []) (hslash : 0x2f ∉ b)
    (hbefore : before = [] ∨ before.getLast? = some 0x2f)
    (hsome : components (trimmed (before ++ b)) ≠ []) :
    asBytes (dentryName (trimmed (before ++ b))) = b ↔ Ascii b ∧ Untrimmed before b := by
  have hvalid := validName_bytes hne hslash
  by_cases hend : b.getLast? = some 0x09 ∨ b.getLast? = some 0x0a
  · refine iff_of_false (fun h => ?_) fun h => hend.elim h.2.1 h.2.2.1
    cases hcut : (trimmed (before ++ b)).getLast? with
    | none =>
      rw [List.getLast?_eq_none_iff] at hcut
      exact hsome (by rw [hcut,components_nil])
    | some y =>
      obtain ⟨hy,htab,hline⟩ := getLast?_trimmed hcut
      obtain ⟨front,name,heq,hfront,hname,hlast⟩ := exists_behind hcut hy
      rw [heq,dentryName_behind hfront hname] at h
      rcases hend with hend | hend <;> rw [← h] at hend <;>
        have hsame := hlast.symm.trans (getLast?_of_asBytes hend (by decide)) <;> cases hsame
      · exact htab rfl
      · exact hline rfl
  · obtain ⟨htab,hline⟩ := not_or.mp hend
    rcases trimmed_cases hne hslash htab hline hbefore with
      ⟨hdots,front,hfront,heq⟩ | ⟨hdots,heq⟩
    · rw [heq,dentryName_behind hfront hvalid,asBytes_eq_iff]
      exact (and_iff_left ⟨htab,hline,fun h => (hdots h).elim⟩).symm
    · rw [heq] at hsome ⊢
      have hname : ValidName (formatRelPath (b.map byteChar)) :=
        ⟨fun hnil => hsome (by rw [hnil,components_nil]),
          fun hmem => hslash (slash_mem_map.mp ((List.dropWhile_suffix _).subset hmem))⟩
      rw [dentryName_append (l := []) (components_name hname)]
      by_cases hdot : b.head? = some 0x2e
      · refine iff_of_false (fun h => ?_) fun h => h.2.2.2 hdots hdot
        rw [← h] at hdot
        exact head?_formatRelPath _ (head?_of_asBytes hdot (by decide))
      · rw [formatRelPath_bytes hslash hdot,asBytes_eq_iff]
        exact (and_iff_left ⟨htab,hline,fun _ => hdot⟩).symm

end Spelling

section Listing

theorem mem_children {a : Str} {c : ℕ} : (a, c) ∈ children d ↔ d.dChild.lookup a = some c := by
  have hmem : (a, c) ∈ children d ↔ ⟨a,c⟩ ∈ d.dChild.entries := by
    rw [children,List.mem_insertionSort,List.mem_map]
    exact ⟨fun ⟨e,he,heq⟩ => by cases heq; exact he,fun he => ⟨_,he,rfl⟩⟩
  rw [hmem,← AList.mem_lookup_iff,Option.mem_def]

theorem Listed.all {count k : ℕ} {l : List (Str × ℕ)} {r : Listing}
    (h : Listed s count l ⟨[], 0, k⟩ r) (hroom : (l.map fun e => recordSize e.1).sum ≤ count) :
    List.Forall₂ (IsRecord s) l r.records := by
  obtain ⟨j,recs,hj,hrecs,hr,-,hoff,hnext⟩ := h.written
  have hsize : (recs.map fun e => recordSize e.name).sum =
      ((l.take j).map fun e => recordSize e.1).sum := by
    have hnames := congrArg (fun names => (names.map recordSize).sum) (names_of_records hrecs)
    simpa [List.map_map,comp_def] using hnames
  have hend : j = l.length := by
    by_contra hne
    have hlt : j < l.length := by omega
    have hfull := hnext l[j] (List.getElem?_eq_getElem hlt)
    have hsum := congrArg (fun l : List (Str × ℕ) => (l.map fun e => recordSize e.1).sum)
      (List.take_append_drop j l)
    rw [List.drop_eq_getElem_cons hlt] at hsum
    simp only [List.map_append,List.map_cons,List.sum_append,List.sum_cons] at hsum
    dsimp only at hoff
    omega
  rw [hr,List.nil_append]
  rwa [hend,List.take_length] at hrecs

def Complete (s : Vfs δ) (d : Dentry) : Prop :=
  ∀ e ∈ children d, ∃ c i, s.dentries e.2 = some c ∧ s.inodes c.dInode = some i

theorem listChildren_returns (count start : ℕ) : ∀ (l : List (Str × ℕ)) (k : ℕ) (r : Listing),
    (∀ e ∈ l, ∃ c i, s.dentries e.2 = some c ∧ s.inodes c.dInode = some i) →
    ∃ r', listChildren count start (l.zipIdx k) r s = .ok r' s := by
  intro l
  induction l with
  | nil => exact fun _ r _ => ⟨r,rfl⟩
  | cons e l ih =>
    intro k r hex
    obtain ⟨c,i,hc,hi⟩ := hex _ List.mem_cons_self
    have hrest := fun e he => hex e (List.mem_cons_of_mem _ he)
    rw [List.zipIdx_cons,listChildren]
    split
    · exact ih (k + 1) r hrest
    · rw [bind_ok (dentry_eq hc),bind_ok (inodeMeta_eq hi)]
      split
      · exact ⟨r,rfl⟩
      · exact ih (k + 1) _ hrest

theorem sysGetdents64_returns {w : World δ} {p fd : ℕ} {file : FileMeta}
    (hfile : fileOf w p fd = some file) (hd : w.vfs.dentries file.fDentry = some d)
    (hdir : IsDirectory w.vfs file.fDentry) (hall : Complete w.vfs d) (count : ℕ) :
    ∃ r w', sysGetdents64 p fd count w = .ok r w' := by
  obtain ⟨d',i,hd',hi,hmode⟩ := hdir
  cases hd.symm.trans hd'
  obtain ⟨ti,t,info,id,hti,ht,hinfo,hid,hopen⟩ := fileOf_eq_some hfile
  obtain ⟨r,hr⟩ := listChildren_returns count file.direntIndex (children d) 0
    ⟨[],0,file.direntIndex⟩ hall
  have hlist : onVfs (getdents file count) w = .ok r w := by
    unfold onVfs getdents
    rw [bind_ok (dentry_eq hd),bind_ok (inodeMeta_eq hi),if_neg (not_not.mpr hmode),hr]
  unfold sysGetdents64
  rw [bind_ok (onTable_get hti ht hinfo),hid]
  dsimp only
  rw [get_bind,hopen,
    bind_ok (rfl : (orStop (some file) : Sys δ FileMeta) w = .ok file w),bind_ok hlist]
  exact ⟨_,_,rfl⟩

end Listing

section Files

variable {path : Str}

/-- A call that makes the file at a path in the directory `fa`, with the inode `ino`. -/
structure Makes (lw : Lwext4 δ) (path : Str) (s : Vfs δ) (fa ino : ℕ) (s' : Vfs δ) : Prop where
  lookups : ∃ s₁ s₂, pathToDentry lw path s = .ok none s₁ ∧
    pathToDentry lw (parentPath path) s₁ = .ok (some fa) s₂ ∧ IsDirectory s₂ fa ∧
    s₂.nextInode = ino
  call : (∃ flags r, sysOpenat lw path flags s = .ok r s') ∨ sysMkdirat lw path s = .ok () s'

/-- The directory, read from its beginning into a buffer with room for all children, shows the
inode under these bytes. -/
def ReportedAs (s : Vfs δ) (dir ino : ℕ) (b : List UInt8) : Prop :=
  ∀ (w : World δ) p fd file count, w.vfs = s → fileOf w p fd = some file → file.fDentry = dir →
    file.direntIndex = 0 →
    (∀ d, s.dentries dir = some d → ((children d).map fun e => recordSize e.1).sum ≤ count) →
    ∃ r w', sysGetdents64 p fd count w = .ok r w' ∧
      ∃ record ∈ r.records, record.head.dIno = ino ∧ asBytes record.name = b

theorem HasInodes.counted (h : HasInodes s) (ino : ℕ) (i : InodeMeta) :
    HasInodes (counted s ino i) := by
  intro id d hd
  obtain ⟨hlt,j,hj⟩ := h id d hd
  refine ⟨hlt,?_⟩
  by_cases heq : d.dInode = ino
  · exact ⟨_,by rw [heq]; exact update_self _ _ _⟩
  · exact ⟨j,(update_of_ne heq _ _).trans hj⟩

theorem validName_of_missing (u : Usable dev s) (h : pathToDentry lw path s = .ok none s₁) :
    ValidName (dentryName path) := by
  obtain ⟨hf,-⟩ := (u.lookup lw path).of_ok h
  obtain ⟨l,a,hp⟩ := (List.eq_nil_or_concat' (components path)).resolve_left (hf.absent rfl).1
  rw [dentryName_append hp]
  exact validName_of_mem_components (p := path) (by simp [hp])

theorem made_of_create {c : ℕ} {mode : InodeMode} (u : Usable dev s)
    (h : pathToDentry lw path s = .ok none s₁)
    (h' : pathToDentry lw (parentPath path) s₁ = .ok (some fa) s₂) (hmode : Ordinary mode)
    (hdir : IsDirectory s₂ fa) (hcreate : create lw fa (dentryName path) mode s₂ = .ok c s₃) :
    c = s₂.nextDentry ∧ Made dev lw path fa mode s s₂ s₃ := by
  obtain ⟨d,-,hd,-⟩ := hdir
  by_cases haccept : Accepts lw s₂ fa (dentryName path) mode
  · obtain ⟨t,ht,hmade⟩ := create_made u hmode h h' haccept
    rw [hcreate] at ht
    cases ht
    exact ⟨rfl,hmade⟩
  · obtain ⟨x,t,ht,-⟩ := create_refused hmode hd (validName_of_missing u h) haccept
    rw [hcreate] at ht
    cases ht

structure Left (dev : Prop) (lw : Lwext4 δ) (path : Str) (fa ino : ℕ) (s s₂ s₃ s' : Vfs δ) :
    Prop where
  made : ∃ mode, Made dev lw path fa mode s s₂ s₃
  dir : IsDirectory s₂ fa
  usable : Usable dev s₂
  fresh : s₂.nextInode = ino
  same : SameTree s₃ s'
  hasInodes : HasInodes s'
  others : ∀ n, n ≠ ino → s'.inodes n = s₃.inodes n

theorem Makes.left (u : Usable dev s) (h : Makes lw path s fa ino s') :
    ∃ s₂ s₃, Left dev lw path fa ino s s₂ s₃ s' := by
  obtain ⟨s₁,s₂,hpath,hparent,hdir,hino⟩ := h.lookups
  obtain ⟨-,u₁,-⟩ := (u.lookup lw path).of_ok hpath
  obtain ⟨-,u₂,-⟩ := (u₁.lookup lw (parentPath path)).of_ok hparent
  rcases h.call with ⟨flags,r,hcall⟩ | hcall
  · by_cases hcreat : PermissionFlags.contains flags OpenFlags.O_CREAT
    · rw [sysOpenat_parent hpath hparent hcreat] at hcall
      obtain ⟨c,s₃,hcreate,hrest⟩ := bind_eq_ok hcall
      obtain ⟨rfl,hmade⟩ := made_of_create u hpath hparent (.inl rfl) hdir hcreate
      obtain ⟨_,_,dc,-,-,hattach,hdc,-⟩ := hmade.attached
      obtain ⟨_,t,hopen,hend⟩ := bind_eq_ok hrest
      cases hend
      rw [openDentry_eq hattach.child (hmade.inode hdc)] at hopen
      split at hopen
      · cases hopen
      · cases hopen
        refine ⟨s₂,s₃,⟨_,hmade⟩,hdir,u₂,hino,sameTree_counted _ _ _,
          HasInodes.counted hmade.hasInodes _ _,fun n hn => ?_⟩
        exact update_of_ne (by rwa [hdc,hino]) _ _
    · -- without the flag nothing is made
      have hfail : sysOpenat lw path flags s = .error (.errno .ENOENT) s₁ := by
        refine (bind_ok hpath).trans ?_
        rw [if_neg hcreat]
        rfl
      rw [hfail] at hcall
      cases hcall
  · obtain ⟨d,i,hd,hi,hmode⟩ := hdir
    rw [sysMkdirat_parent hpath hparent hd hi,if_neg (not_not.mpr hmode)] at hcall
    obtain ⟨c,s₃,hcreate,hrest⟩ := bind_eq_ok hcall
    cases hrest
    obtain ⟨rfl,hmade⟩ := made_of_create u hpath hparent (.inr rfl) ⟨d,i,hd,hi,hmode⟩ hcreate
    exact ⟨s₂,s',⟨_,hmade⟩,⟨d,i,hd,hi,hmode⟩,u₂,hino,.refl _,hmade.hasInodes,
      fun _ _ => rfl⟩

theorem Left.children (h : Left dev lw path fa ino s s₂ s₃ s') :
    ∃ d, s'.dentries fa = some d ∧ IsDirectory s' fa ∧ Complete s' d ∧
      (∃ c dc, (dentryName path, c) ∈ children d ∧ s'.dentries c = some dc ∧ dc.dInode = ino) ∧
      ∀ e ∈ children d, ∀ dc, s'.dentries e.2 = some dc → dc.dInode = ino →
        e.1 = dentryName path := by
  obtain ⟨mode,hmade⟩ := h.made
  obtain ⟨t,dfa,dc,hsame,hdfa,hattach,hdc,-⟩ := hmade.attached
  obtain ⟨d,i,hd,hi,hmode⟩ := h.dir
  cases hdfa.symm.trans hd
  have hfa : s'.dentries fa = some { dfa with
      dChild := dfa.dChild.insert (dentryName path) s₂.nextDentry } := by
    rw [h.same.1,hattach.parent]
  have hold := h.usable.inodes fa dfa hdfa
  rw [h.fresh] at hold
  refine ⟨_,hfa,⟨_,i,hfa,?_,hmode⟩,fun e he => ?_,
    ⟨s₂.nextDentry,dc,mem_children.mpr (AList.lookup_insert _),?_,hdc.trans h.fresh⟩,
    fun e he de hde hino => ?_⟩
  · rw [h.others _ hold.1.ne,hmade.inodes,← hi]
    exact update_of_ne (h.fresh.symm ▸ hold.1.ne) _ _
  · have hedge : childOf s₃ fa e.1 = some e.2 :=
      (childOf_eq hattach.parent e.1).trans (mem_children.mp he)
    obtain ⟨_,de,_,hde,_⟩ := hmade.inv.edge _ _ _ hedge
    rw [← h.same.1] at hde
    obtain ⟨-,j,hj⟩ := h.hasInodes e.2 de hde
    exact ⟨de,j,hde,hj⟩
  · rw [h.same.1,hattach.child]
  · by_contra hne
    have hchild : dfa.dChild.lookup e.1 = some e.2 := by
      rw [← AList.lookup_insert_ne hne]
      exact mem_children.mp he
    obtain ⟨_,d₂,_,hd₂,_⟩ := h.usable.tree.edge fa e.1 e.2 ((childOf_eq hdfa e.1).trans hchild)
    have hkept : de.dInode = d₂.dInode := by
      have hnew : e.2 ≠ s₂.nextDentry := fun heq => by
        rw [heq,h.usable.tree.fresh _ le_rfl] at hd₂
        cases hd₂
      rw [h.same.1] at hde
      by_cases hself : e.2 = fa
      · rw [hself] at hd₂ hde
        rw [hattach.parent,Option.some.injEq] at hde
        rw [hdfa,Option.some.injEq] at hd₂
        rw [← hde,← hd₂]
      · rw [hattach.others _ hself hnew,hsame.1,hd₂,Option.some.injEq] at hde
        rw [hde]
    have hlt := (h.usable.inodes e.2 d₂ hd₂).1
    rw [h.fresh,← hino,hkept] at hlt
    exact lt_irrefl _ hlt

theorem mem_of_forall₂ {α β : Type} {R : α → β → Prop} {l : List α} {l' : List β}
    (h : List.Forall₂ R l l') :
    (∀ a ∈ l, ∃ b ∈ l', R a b) ∧ ∀ b ∈ l', ∃ a ∈ l, R a b := by
  induction h with
  | nil => simp
  | cons hab _ ih =>
    refine ⟨List.forall_mem_cons.mpr ⟨⟨_,List.mem_cons_self,hab⟩,fun a ha => ?_⟩,
      List.forall_mem_cons.mpr ⟨⟨_,List.mem_cons_self,hab⟩,fun b hb => ?_⟩⟩
    · obtain ⟨b,hb,hr⟩ := ih.1 a ha
      exact ⟨b,List.mem_cons_of_mem _ hb,hr⟩
    · obtain ⟨a,ha,hr⟩ := ih.2 b hb
      exact ⟨a,List.mem_cons_of_mem _ ha,hr⟩

def reader (s : Vfs δ) (dir : ℕ) : World δ :=
  ⟨s, fun _ => some ⟨dir, 0, 0⟩, 1, [], [⟨AList.singleton 0 ⟨.opened 0, 0⟩, ∅⟩], [0]⟩

theorem made_reported_iff (u : Usable dev s) (h : Makes lw path s fa ino s') :
    ReportedAs s' fa ino b ↔ asBytes (dentryName path) = b := by
  obtain ⟨s₂,s₃,hleft⟩ := h.left u
  obtain ⟨d,hd,hdir,hall,⟨c,dc,hchild,hdc,hino⟩,honly⟩ := hleft.children
  have hread : ∀ (w : World δ) p fd file count, w.vfs = s' → fileOf w p fd = some file →
      file.fDentry = fa → file.direntIndex = 0 →
      ((children d).map fun e => recordSize e.1).sum ≤ count →
      ∃ r w', sysGetdents64 p fd count w = .ok r w' ∧
        List.Forall₂ (IsRecord s') (children d) r.records := by
    rintro w p fd file count rfl hfile rfl hindex hroom
    obtain ⟨r,w',hr⟩ := sysGetdents64_returns hfile hd hdir hall count
    obtain ⟨-,-,hlisted⟩ := (sysGetdents64_holds hfile hd count).of_ok hr
    rw [hindex,List.drop_zero] at hlisted
    exact ⟨r,w',hr,Listed.all hlisted hroom⟩
  constructor
  · intro hreported
    have hfile : fileOf (reader s' fa) 0 0 = some ⟨fa,0,0⟩ := rfl
    have hroom : ∀ d', s'.dentries fa = some d' → ((children d').map fun e => recordSize e.1).sum ≤
        ((children d).map fun e => recordSize e.1).sum := fun d' hd' => by
      cases hd.symm.trans hd'
      exact le_rfl
    obtain ⟨r,w',hr,record,hmem,hrec,hb⟩ := hreported _ 0 0 _ _ rfl hfile rfl rfl hroom
    obtain ⟨r',w'',hr',hrecs⟩ := hread _ 0 0 _ _ rfl hfile rfl rfl (hroom d hd)
    rw [hr] at hr'
    cases hr'
    obtain ⟨e,he,de,i,hde,-,rfl⟩ := (mem_of_forall₂ hrecs).2 record hmem
    rw [← honly e he de hde hrec]
    exact hb
  · rintro rfl w p fd file count hw hfile hfd hindex hroom
    obtain ⟨r,w',hr,hrecs⟩ := hread w p fd file count hw hfile hfd hindex (hroom d hd)
    obtain ⟨record,hmem,dc',i,hdc',-,rfl⟩ := (mem_of_forall₂ hrecs).1 _ hchild
    cases hdc.symm.trans hdc'
    exact ⟨r,w',hr,_,hmem,hino,rfl⟩

end Files

section Arguments

variable {m : Memory} {addr : ℕ}

theorem stringAt_unique {l l' : List UInt8} (h : StringAt m addr l) (h' : StringAt m addr l')
    (hl : 0 ∉ l) (hl' : 0 ∉ l') : l = l' := by
  have hle : ∀ {l l' : List UInt8}, StringAt m addr l → StringAt m addr l' → 0 ∉ l' →
      l'.length ≤ l.length := by
    intro l l' h h' hl'
    by_contra hlt
    have hzero := h'.1 l.length (by omega)
    rw [h.2] at hzero
    exact hl' (hzero ▸ List.getElem_mem _)
  have hlen : l.length = l'.length := le_antisymm (hle h' h hl) (hle h h' hl')
  refine List.ext_getElem hlen fun k hk hk' => ?_
  rw [← h.1 k hk,← h'.1 k hk']

/-- An `execve` whose strings are these leaves the memory `m`. -/
def Executes (args envs : List (List UInt8)) (layout : StackLayout) (m : Memory) : Prop :=
  ∃ mapped top auxv random m₀ sp, Bounded mapped top ∧
    buildStack mapped ⟨auxv, args.map cPtrToString, envs.map cPtrToString⟩ random top m₀ =
      .ok (sp, layout) m

/-- The string with the number `i` that the program finds through a table of pointers. -/
def FoundAt (m : Memory) (table i : ℕ) (b : List UInt8) : Prop :=
  StringAt m (readUsize m (table + 8 * i)) b

theorem foundAt_iff {strs : List (List UInt8)} {table i : ℕ} (hnul : 0 ∉ b)
    (h : TableAt m table (strs.map cPtrToString)) (hi : strs[i]? = some b) :
    FoundAt m table i b ↔ Ascii b := by
  obtain ⟨hlt,hget⟩ := List.getElem?_eq_some_iff.mp hi
  have hstr := h i (by simpa using hlt)
  rw [List.getElem_map,hget,cPtrToString_eq hnul] at hstr
  rw [← asBytes_eq_iff]
  constructor
  · exact fun hfound => stringAt_unique hstr hfound (zero_notMem_asBytes hnul) hnul
  · intro heq
    rwa [heq] at hstr

end Arguments

section Results

/-- `before` and the name `b` are a path: absolute, or from the directory with the path `dirPath`
on, in which or below which the file is made. -/
def Spells (dirPath : Str) (before b : List UInt8) : Prop :=
  0 ∉ before ∧ (before = [] ∨ before.getLast? = some 0x2f) ∧
    (before.head? ≠ some 0x2f → components (startPath dirPath ((before ++ b).map byteChar)) <+:
      components (parentPath (ptrAndDirfdToPath dirPath (before ++ b))))

/-- The bytes that come out again. -/
def Survives (before b : List UInt8) : Prop :=
  Ascii b ∧ (before.head? ≠ some 0x2f → Untrimmed before b)

theorem reported_iff {before : List UInt8} (hne : b ≠ []) (hnul : 0 ∉ b) (hslash : 0x2f ∉ b)
    (u : Usable dev s) (hptr : Spells dirPath before b)
    (h : Makes lw (ptrAndDirfdToPath dirPath (before ++ b)) s fa ino s') :
    ReportedAs s' fa ino b ↔ Survives before b := by
  rw [made_reported_iff u h,Survives]
  obtain ⟨hzero,hbefore,hdir⟩ := hptr
  have hstring := cPtrToString_eq (b := before ++ b) (by simp [hzero,hnul])
  by_cases habs : before.head? = some 0x2f
  · have hpath : ptrAndDirfdToPath dirPath (before ++ b) = (before ++ b).map byteChar := by
      unfold ptrAndDirfdToPath
      dsimp only
      rw [hstring,if_neg]
      simp [isRelativePath,List.head?_append,habs]
      decide
    rw [hpath,List.map_append,dentryName_behind (behind_map hbefore) (validName_bytes hne hslash),
      asBytes_eq_iff]
    simp [habs]
  · have hpath : ptrAndDirfdToPath dirPath (before ++ b) =
        joinName (trimmed (before ++ b)) (startPath dirPath ((before ++ b).map byteChar)) := by
      unfold ptrAndDirfdToPath
      dsimp only
      rw [hstring,if_pos]
      · rfl
      · refine decide_eq_true fun hhead => ?_
        rw [List.head?_map,Option.map_eq_some_iff] at hhead
        obtain ⟨x,hx,hbyte⟩ := hhead
        obtain rfl : x = 0x2f := byteChar_injective hbyte
        cases before with
        | nil => exact hslash (List.mem_of_head? hx)
        | cons y before => exact habs hx
    obtain ⟨s₁,_,hlook,-⟩ := h.lookups
    obtain ⟨hf,-⟩ := (u.lookup lw _).of_ok hlook
    have hnonempty := (hf.absent rfl).1
    have hpre := hdir habs
    rw [components_parentPath_dropLast] at hpre
    rw [hpath,components_join] at hnonempty hpre
    have hsome : components (trimmed (before ++ b)) ≠ [] := by
      intro hnil
      rw [hnil,List.append_nil] at hnonempty hpre
      have hlen := hpre.length_le
      rw [List.length_dropLast] at hlen
      have hpos := List.length_pos_iff.mpr hnonempty
      omega
    rw [forall_prop_of_true habs,← asBytes_trimmed_iff hne hslash hbefore hsome,hpath,dentryName_eq,
      components_join,List.getLast?_append_of_ne_nil _ hsome,← dentryName_eq]

/-- Names in directories and strings for new programs are kept exactly when they are below 0x80
and, for a relative name, when nothing of it is cut off. -/
theorem bytes_survive_iff (hne : b ≠ []) (hnul : 0 ∉ b) (hslash : 0x2f ∉ b) :
    (∀ {δ : Type} {dev : Prop} {lw : Lwext4 δ} {s s' : Vfs δ} {fa ino : ℕ} {dirPath : Str}
      {before : List UInt8}, Usable dev s → Spells dirPath before b →
      Makes lw (ptrAndDirfdToPath dirPath (before ++ b)) s fa ino s' →
      (ReportedAs s' fa ino b ↔ Survives before b)) ∧
    ∀ {args envs : List (List UInt8)} {layout : StackLayout} {m : Memory},
      Executes args envs layout m →
      (∀ i, args[i]? = some b → (FoundAt m layout.argv i b ↔ Ascii b)) ∧
      ∀ i, envs[i]? = some b → (FoundAt m layout.envp i b ↔ Ascii b) := by
  refine ⟨fun u hptr h => reported_iff hne hnul hslash u hptr h,?_⟩
  rintro args envs layout m ⟨mapped,top,auxv,random,m₀,sp,hb,hbuild⟩
  obtain ⟨hargs,henvs⟩ := (buildStack_holds hb _ random).of_ok hbuild
  exact ⟨fun i hi => foundAt_iff hnul hargs hi,fun i hi => foundAt_iff hnul henvs hi⟩

def makesDirectory (path : Str) : Bool :=
  returnsWith (mount listDisk 2 ['/'] true .EXT4) (Vfs.cold [(['/', 'f'], .regFile)]) fun _ s =>
    returnsWith (pathToDentry listDisk path) s (fun r s₁ => r.isNone &&
      returnsWith (pathToDentry listDisk (parentPath path)) s₁ fun r s₂ => r = some 0 ∧
        (s₂.dentries 0).map (fun d => d.dInode) = some 0 ∧
        s₂.inodes 0 = some ⟨.Directory, 1, 0⟩) &&
    returnsWith (sysMkdirat listDisk path) s fun _ _ => true

theorem makes_of_run (path : Str) (h : makesDirectory path = true) :
    ∃ (s s' : Vfs ListDisk) (ino : ℕ),
      mount listDisk 2 ['/'] true .EXT4 (Vfs.cold [(['/', 'f'], .regFile)]) = .ok () s ∧
      Makes listDisk path s 0 ino s' := by
  obtain ⟨_,s,hs,hrun⟩ := returnsWith_elim h
  obtain ⟨hlook,hcall⟩ := Bool.and_eq_true_iff.mp hrun
  obtain ⟨r,s₁,hs₁,hlook⟩ := returnsWith_elim hlook
  obtain ⟨hnone,hlook⟩ := Bool.and_eq_true_iff.mp hlook
  obtain ⟨r',s₂,hs₂,htest⟩ := returnsWith_elim hlook
  obtain ⟨rfl,hmap,hi⟩ := of_decide_eq_true htest
  obtain ⟨_,s',hs',-⟩ := returnsWith_elim hcall
  obtain ⟨d,hd,hino⟩ := Option.map_eq_some_iff.mp hmap
  rw [Option.isNone_iff_eq_none] at hnone
  subst hnone
  exact ⟨s,s',_,hs,⟨s₁,s₂,hs₁,hs₂,⟨d,_,hd,hino.symm ▸ hi,rfl⟩,rfl⟩,.inr hs'⟩

theorem executes_one (b : List UInt8) (h : returnsWith (buildStack (fun a => a < 4096)
    ⟨[], [cPtrToString b], []⟩ (fun _ => 0) 4096) (fun _ => 0) (fun _ _ => true) = true) :
    ∃ layout m, Executes [b] [] layout m := by
  obtain ⟨⟨sp,layout⟩,m,hm,-⟩ := returnsWith_elim h
  exact ⟨layout,m,_,4096,[],_,_,sp,⟨fun a ha => by simpa using ha,by decide⟩,hm⟩

theorem spells_root (b : List UInt8) : Spells ['/'] [0x2f] b :=
  ⟨by decide,.inr rfl,fun hrel => (hrel rfl).elim⟩

/-- The name `d`, as a directory and as an argument. -/
theorem bytes_survive_letter : (∃ (s s' : Vfs ListDisk) (ino : ℕ), Usable False s ∧
      Makes listDisk (ptrAndDirfdToPath ['/'] [0x2f, 0x64]) s 0 ino s' ∧
      ReportedAs s' 0 ino [0x64]) ∧
    ∃ layout m, Executes [[0x64]] [] layout m ∧ FoundAt m layout.argv 0 [0x64] := by
  have hkept := bytes_survive_iff (b := [0x64]) (by decide) (by decide) (by decide)
  have hascii : Ascii [0x64] := by decide
  constructor
  · obtain ⟨s,s',ino,hs,hmakes⟩ := makes_of_run
      (ptrAndDirfdToPath ['/'] [0x2f,0x64]) (by decide +kernel)
    exact ⟨s,s',ino,mounted_usable hs,hmakes,(hkept.1 (mounted_usable hs)
      (spells_root _) hmakes).mpr ⟨hascii,fun hrel => (hrel rfl).elim⟩⟩
  · obtain ⟨layout,m,hrun⟩ := executes_one [0x64] (by decide +kernel)
    exact ⟨layout,m,hrun,((hkept.2 hrun).1 0 rfl).mpr hascii⟩

/-- The two bytes of a letter with an accent come out as four. -/
theorem accent_not_reported : ∃ (s s' : Vfs ListDisk) (ino : ℕ), Usable False s ∧
    Makes listDisk (ptrAndDirfdToPath ['/'] [0x2f, 0xc3, 0xa9]) s 0 ino s' ∧
    ¬ ReportedAs s' 0 ino [0xc3, 0xa9] := by
  obtain ⟨s,s',ino,hs,hmakes⟩ := makes_of_run
    (ptrAndDirfdToPath ['/'] [0x2f,0xc3,0xa9]) (by decide +kernel)
  refine ⟨s,s',ino,mounted_usable hs,hmakes,fun hreported => ?_⟩
  have hsurvives := (reported_iff (by decide) (by decide) (by decide) (mounted_usable hs)
    (spells_root [0xc3,0xa9]) hmakes).mp hreported
  exact absurd hsurvives.1 (by decide)

end Results

end DuckOs.ByteStrings
