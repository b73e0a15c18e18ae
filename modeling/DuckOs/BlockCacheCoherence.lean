import DuckOs.BlockCacheModel

namespace DuckOs.BlockCacheCoherence
open AddressModel BlockDevices ClockSweeps BlockCacheModel BlockCacheModel.Caches Function

variable {s t u : Caches} {p : ℕ × ℕ} {slot : Slot} {i blockId object : ℕ} {sector : Sector}
  {op : CacheOp} {ops : List CacheOp}

def Live (s : Caches) (object : ℕ) : Prop := object ∈ s.queue.map Slot.object ∨ object ∈ s.handles

structure Coherent (s : Caches) : Prop where
  one : ∀ a b, Live s a → Live s b → (s.objects a).blockId = (s.objects b).blockId → a = b
  held : ∀ object ∈ s.handles, object ∈ s.queue.map Slot.object
  bound : s.queue.length ≤ sectorCacheSize

def Current (s : Caches) : CacheOp → Prop
  | .get blockId => ∀ object t, s.getBlockCache blockId = .ok (object, t) →
      (t.objects object).cache = s.latest blockId
  | .read handle offset len => ∀ object bytes, s.handles[handle]? = some object →
      s.readBytes object offset len = .ok bytes →
      bytes = ((s.latest (s.objects object).blockId).val.drop offset).take len
  | _ => True

def Returns (s : Caches) (op : CacheOp) : Prop :=
  op.step s ≠ .error .index ∧ op.step s ≠ .error .endless

/-- Every state on the way is coherent and every operation right, up to where the kernel stops. -/
def CoherentAlong : Caches → List CacheOp → Prop
  | s, [] => Coherent s
  | s, op :: ops =>
    Coherent s ∧ Returns s op ∧ Current s op ∧ ∀ t, op.step s = .ok t → CoherentAlong t ops

/-- For a new block and a full queue there is a slot that the clock can find, and the one behind it
exists and is not held. -/
def Spare (s : Caches) : CacheOp → Prop
  | .get blockId => blockId < s.device.sectors.length → (∀ slot ∈ s.queue, slot.blockId ≠ blockId) →
      s.queue.length = sectorCacheSize →
      ∃ i, s.clockHand.chosen (s.queue.rotate s.clock) = some i ∧
        ∃ next, s.queue[(s.clock + i) % sectorCacheSize + 1]? = some next ∧ next.object ∉ s.handles
  | _ => True

def SpareAlong : Caches → List CacheOp → Prop
  | _, [] => True
  | s, op :: ops => Spare s op ∧ ∀ t, op.step s = .ok t → SpareAlong t ops

def pairs (s : Caches) : List (ℕ × ℕ) := s.queue.map fun slot => (slot.blockId, slot.object)

structure CachedAt (s : Caches) (p : ℕ × ℕ) : Prop where
  made : p.2 < s.fresh
  inside : p.1 < s.device.sectors.length
  named : (s.objects p.2).blockId = p.1
  current : (s.objects p.2).cache = s.latest p.1
  clean : (s.objects p.2).modified = false → s.device.sectors[p.1]? = some (s.latest p.1)

structure Sound (s : Caches) : Prop where
  ids : ((pairs s).map Prod.fst).Nodup
  objects : ((pairs s).map Prod.snd).Nodup
  cached : ∀ p ∈ pairs s, CachedAt s p
  held : ∀ object ∈ s.handles, object ∈ (pairs s).map Prod.snd
  bound : (pairs s).length ≤ sectorCacheSize
  hand : s.clock < sectorCacheSize
  stored : ∀ id < s.device.sectors.length, id ∉ (pairs s).map Prod.fst →
    s.device.sectors[id]? = some (s.latest id)

theorem CachedAt.requeued (h : CachedAt s p) (queue : List Slot) (clock : ℕ) (handles : List ℕ) :
    CachedAt { s with queue := queue, clock := clock, handles := handles } p :=
  ⟨h.made,h.inside,h.named,h.current,h.clean⟩

theorem map_snd_pairs (s : Caches) : (pairs s).map Prod.snd = s.queue.map Slot.object := by
  simp [pairs]

theorem map_fst_pairs (s : Caches) : (pairs s).map Prod.fst = s.queue.map Slot.blockId := by
  simp [pairs]

theorem Sound.coherent (h : Sound s) : Coherent s := by
  have hheld : ∀ object ∈ s.handles, object ∈ s.queue.map Slot.object := by
    rw [← map_snd_pairs]
    exact h.held
  have hlive : ∀ object, Live s object → ∃ p ∈ pairs s, p.2 = object := by
    intro object hobject
    have hmem : object ∈ (pairs s).map Prod.snd := by
      rw [map_snd_pairs]
      exact hobject.elim id (hheld object)
    simpa using hmem
  refine ⟨?_,hheld,by simpa [pairs] using h.bound⟩
  intro a b ha hb hsame
  obtain ⟨p,hp,rfl⟩ := hlive a ha
  obtain ⟨q,hq,rfl⟩ := hlive b hb
  rw [(h.cached p hp).named,(h.cached q hq).named] at hsame
  rw [List.inj_on_of_nodup_map h.ids hp hq hsame]

theorem sound_booted (device : BlockDevice) (objects : ℕ → BlockCache) :
    Sound (booted device objects) := by
  refine ⟨List.nodup_nil,List.nodup_nil,nofun,nofun,Nat.zero_le _,Nat.zero_lt_succ _,?_⟩
  intro id hid _
  obtain ⟨sector,hsector⟩ : ∃ sector, device.sectors[id]? = some sector :=
    ⟨_,List.getElem?_eq_getElem hid⟩
  simp [booted,hsector]

structure Synced (s : Caches) (p : ℕ × ℕ) (t : Caches) : Prop where
  queue : t.queue = s.queue
  clock : t.clock = s.clock
  handles : t.handles = s.handles
  latest : t.latest = s.latest
  fresh : t.fresh = s.fresh
  size : t.device.sectors.length = s.device.sectors.length
  here : t.device.sectors[p.1]? = some (s.latest p.1)
  away : ∀ id, id ≠ p.1 → t.device.sectors[id]? = s.device.sectors[id]?
  named : (t.objects p.2).blockId = (s.objects p.2).blockId
  cache : (t.objects p.2).cache = (s.objects p.2).cache
  others : ∀ object, object ≠ p.2 → t.objects object = s.objects object

theorem Synced.pairs_eq (h : Synced s p t) : pairs t = pairs s := by
  unfold pairs
  rw [h.queue]

theorem sync_ok (h : CachedAt s p) : ∃ t, s.sync p.2 = .ok t ∧ Synced s p t := by
  unfold sync
  by_cases hm : (s.objects p.2).modified = true
  · obtain ⟨device,hwrite,hsectors⟩ := BlockDevice.writeBlock_ok
      (h.named.symm ▸ h.inside : (s.objects p.2).blockId < s.device.sectors.length)
      (s.objects p.2).cache
    let block : BlockCache := { s.objects p.2 with modified := false }
    refine ⟨{ s with device := device, objects := update s.objects p.2 block },?_,?_⟩
    · dsimp only
      rw [if_pos hm,hwrite]
      rfl
    · rw [h.named,h.current] at hsectors
      refine ⟨rfl,rfl,rfl,rfl,rfl,?_,?_,?_,by simp [block],by simp [block],?_⟩
      · rw [hsectors,List.length_set]
      · rw [hsectors,List.getElem?_set_self h.inside]
      · intro id hid
        rw [hsectors,List.getElem?_set_ne (Ne.symm hid)]
      · intro object hobject
        exact update_of_ne hobject _ _
  · refine ⟨s,?_,⟨rfl,rfl,rfl,rfl,rfl,rfl,?_,fun _ _ => rfl,rfl,rfl,fun _ _ => rfl⟩⟩
    · dsimp only
      rw [if_neg hm]
      rfl
    · exact h.clean (by simpa using hm)

theorem CachedAt.synced {q : ℕ × ℕ} (h : CachedAt s q) (hs : Synced s p t)
    (hq : q = p ∨ (q.1 ≠ p.1 ∧ q.2 ≠ p.2)) : CachedAt t q := by
  rcases hq with rfl | ⟨hid,hobject⟩
  · refine ⟨hs.fresh ▸ h.made,hs.size ▸ h.inside,hs.named.trans h.named,?_,?_⟩
    · rw [hs.cache,hs.latest,h.current]
    · intro _
      rw [hs.here,hs.latest]
  · refine ⟨hs.fresh ▸ h.made,hs.size ▸ h.inside,?_,?_,?_⟩
    · rw [hs.others _ hobject,h.named]
    · rw [hs.others _ hobject,hs.latest,h.current]
    · rw [hs.others _ hobject,hs.away _ hid,hs.latest]
      exact h.clean

theorem Sound.synced (h : Sound s) (hp : p ∈ pairs s) (hs : Synced s p t) : Sound t := by
  have hpairs := hs.pairs_eq
  refine ⟨hpairs ▸ h.ids,hpairs ▸ h.objects,?_,?_,hpairs ▸ h.bound,hs.clock ▸ h.hand,?_⟩
  · intro q hq
    rw [hpairs] at hq
    apply (h.cached q hq).synced hs
    by_cases hqp : q = p
    · exact .inl hqp
    · exact .inr ⟨fun he => hqp (List.inj_on_of_nodup_map h.ids hq hp he),
        fun he => hqp (List.inj_on_of_nodup_map h.objects hq hp he)⟩
  · rw [hs.handles,hpairs]
    exact h.held
  · intro id hid hnot
    rw [hpairs] at hnot
    rw [hs.size] at hid
    have hne : id ≠ p.1 := by
      rintro rfl
      exact hnot (List.mem_map_of_mem hp)
    rw [hs.away id hne,hs.latest]
    exact h.stored id hid hnot

theorem Sound.dropped (h : Sound s) {queue : List Slot} {clock : ℕ}
    (hp : (pairs s).Perm (p :: pairs { s with queue := queue })) (hfree : p.2 ∉ s.handles)
    (hc : clock < sectorCacheSize) :
    ∃ t, { s with queue := queue, clock := clock }.dropArc p.2 = .ok t ∧ Sound t ∧
      Synced { s with queue := queue, clock := clock } p t := by
  obtain ⟨hid,hids⟩ := List.nodup_cons.mp ((hp.map Prod.fst).nodup_iff.mp h.ids)
  obtain ⟨hobject,hobjects⟩ := List.nodup_cons.mp ((hp.map Prod.snd).nodup_iff.mp h.objects)
  obtain ⟨t,hsync,hs⟩ :=
    sync_ok ((h.cached p (hp.mem_iff.mpr List.mem_cons_self)).requeued queue clock s.handles)
  refine ⟨t,?_,?_,hs⟩
  · have hzero : { s with queue := queue, clock := clock }.strongCount p.2 = 0 := by
      rw [map_snd_pairs] at hobject
      unfold strongCount
      rw [List.count_eq_zero.mpr hobject,List.count_eq_zero.mpr hfree]
    unfold dropArc
    rw [if_pos hzero,hsync]
  · have hpairs : pairs t = pairs { s with queue := queue } := hs.pairs_eq
    refine ⟨hpairs ▸ hids,hpairs ▸ hobjects,?_,?_,?_,hs.clock ▸ hc,?_⟩
    · intro q hq
      rw [hpairs] at hq
      have hold := h.cached q (hp.mem_iff.mpr (List.mem_cons_of_mem _ hq))
      refine (hold.requeued queue clock s.handles).synced hs (.inr ⟨?_,?_⟩)
      · intro he
        exact hid (he ▸ List.mem_map_of_mem hq)
      · intro he
        exact hobject (he ▸ List.mem_map_of_mem hq)
    · intro object hmem
      rw [hs.handles] at hmem
      rw [hpairs]
      rcases List.mem_cons.mp ((hp.map Prod.snd).mem_iff.mp (h.held object hmem)) with rfl | hin
      · exact absurd hmem hfree
      · exact hin
    · have hlen := hp.length_eq.symm.trans_le h.bound
      rw [hpairs]
      exact Nat.le_of_succ_le hlen
    · intro id hlt hnot
      rw [hpairs] at hnot
      rw [hs.size] at hlt
      rw [hs.latest]
      by_cases he : id = p.1
      · rw [he]
        exact hs.here
      · rw [hs.away id he]
        apply h.stored id hlt
        intro hmem
        rcases List.mem_cons.mp ((hp.map Prod.fst).mem_iff.mp hmem) with hin | hin
        · exact he hin
        · exact hnot hin

theorem Sound.added (h : Sound s) (slot : Slot) (hslot : CachedAt s (slot.blockId, slot.object))
    (hid : slot.blockId ∉ (pairs s).map Prod.fst) (hobject : slot.object ∉ (pairs s).map Prod.snd)
    (hlen : (pairs s).length < sectorCacheSize) :
    Sound { s with queue := s.queue ++ [slot] } := by
  have hpairs : pairs { s with queue := s.queue ++ [slot] } =
      pairs s ++ [(slot.blockId, slot.object)] := by simp [pairs]
  refine ⟨?_,?_,?_,?_,?_,h.hand,?_⟩
  · rw [hpairs,List.map_append,List.nodup_append_comm]
    exact List.nodup_cons.mpr ⟨hid,h.ids⟩
  · rw [hpairs,List.map_append,List.nodup_append_comm]
    exact List.nodup_cons.mpr ⟨hobject,h.objects⟩
  · intro q hq
    rw [hpairs,List.mem_append,List.mem_singleton] at hq
    have hcached : CachedAt s q := by
      rcases hq with hq | rfl
      · exact h.cached q hq
      · exact hslot
    exact hcached.requeued _ s.clock s.handles
  · intro object hmem
    rw [hpairs,List.map_append]
    exact List.mem_append_left _ (h.held object hmem)
  · rw [hpairs,List.length_append]
    exact hlen
  · intro id hlt hnot
    rw [hpairs,List.map_append] at hnot
    exact h.stored id hlt fun hmem => hnot (List.mem_append_left _ hmem)

theorem Sound.strongCount_eq (h : Sound s) (hp : p ∈ pairs s) :
    s.strongCount p.2 = 1 + s.handles.count p.2 := by
  unfold strongCount
  rw [← map_snd_pairs,List.count_eq_one_of_mem h.objects (List.mem_map_of_mem hp)]

theorem Sound.drained (h : Sound s) (hfull : s.queue.length = sectorCacheSize)
    (hi : s.clockHand.chosen (s.queue.rotate s.clock) = some i) :
    ∃ p t queue, (pairs s)[(s.clock + i) % sectorCacheSize]? = some p ∧ Sound t ∧
      pairs { s with queue := queue } = (pairs s).eraseIdx ((s.clock + i) % sectorCacheSize) ∧
      Synced { s with queue := queue, clock := (s.clock + i) % sectorCacheSize } p t ∧
      ∀ slot, s.replaceSlot slot =
        match t.queue[(s.clock + i) % sectorCacheSize]? with
        | none => .error .index
        | some old => { t with
            queue := t.queue.set ((s.clock + i) % sectorCacheSize) slot
            clock := ((s.clock + i) % sectorCacheSize + 1) % sectorCacheSize }.dropArc
              old.object := by
  obtain ⟨slots,x,hsweep,hx,hpin,hmap⟩ := Clock.sweep_chosen hfull h.hand hi
  have hpairs : slots.map (fun slot => (slot.blockId, slot.object)) = pairs s :=
    hmap (fun slot => (slot.blockId, slot.object)) fun _ => rfl
  generalize hv : (s.clock + i) % sectorCacheSize = v at *
  have hvlt : v < sectorCacheSize := hv ▸ Nat.mod_lt _ (by decide)
  have hrest : pairs { s with queue := slots.eraseIdx v } = (pairs s).eraseIdx v := by
    rw [← hpairs]
    exact (List.eraseIdx_map _ _ _).symm
  have hat : (pairs s)[v]? = some (x.blockId, x.object) := by
    rw [← hpairs,List.getElem?_map,hx]
    rfl
  have hperm : (pairs s).Perm
      ((x.blockId, x.object) :: pairs { s with queue := slots.eraseIdx v }) := by
    obtain ⟨hlt,hget⟩ := List.getElem?_eq_some_iff.mp hat
    rw [hrest,← hget]
    exact (List.getElem_cons_eraseIdx_perm hlt).symm
  have hfree : x.object ∉ s.handles := by
    have hone : s.strongCount x.object = 1 := by simpa [clockHand] using hpin
    have hcount : s.strongCount x.object = 1 + s.handles.count x.object :=
      h.strongCount_eq (List.mem_of_getElem? hat)
    exact List.count_eq_zero.mp (by omega)
  obtain ⟨t,hdrop,ht,hs⟩ := h.dropped hperm hfree hvlt
  refine ⟨_,t,slots.eraseIdx v,hat,ht,hrest,hs,?_⟩
  intro slot
  unfold replaceSlot
  rw [hsweep]
  dsimp only
  have hfold : [x.object].foldlM dropArc { s with queue := slots.eraseIdx v, clock := v } =
      .ok t := by
    rw [List.foldlM_cons,hdrop]
    rfl
  rw [hx,Option.toList_some,List.map_singleton,hfold]
  rfl

theorem Sound.replaced (h : Sound s) (slot : Slot) (hnew : CachedAt s (slot.blockId, slot.object))
    (hid : slot.blockId ∉ (pairs s).map Prod.fst) (hobject : slot.object ∉ (pairs s).map Prod.snd)
    (hfull : s.queue.length = sectorCacheSize)
    (hi : s.clockHand.chosen (s.queue.rotate s.clock) = some i) :
    (s.queue[(s.clock + i) % sectorCacheSize + 1]? = none → s.replaceSlot slot = .error .index) ∧
    ∀ next, s.queue[(s.clock + i) % sectorCacheSize + 1]? = some next →
      ∃ u queue clock, Sound u ∧ u.handles = s.handles ∧ u.latest = s.latest ∧
        clock < sectorCacheSize ∧
        (pairs u).Perm ((next.blockId, next.object) :: pairs { u with queue := queue }) ∧
        (slot.blockId, slot.object) ∈ pairs { u with queue := queue } ∧
        s.replaceSlot slot = { u with queue := queue, clock := clock }.dropArc next.object := by
  obtain ⟨p,t,queue,hp,ht,hrest,hs,hrun⟩ := h.drained hfull hi
  generalize hv : (s.clock + i) % sectorCacheSize = v at *
  have hpairs : pairs t = (pairs s).eraseIdx v := hs.pairs_eq.trans hrest
  have hafter : (pairs t)[v]? = (pairs s)[v + 1]? := by
    rw [hpairs,List.getElem?_eraseIdx_of_ge le_rfl]
  have hmem := List.mem_of_getElem? hp
  constructor
  · intro hnone
    have hend : t.queue[v]? = none := by
      simpa [pairs,hnone] using hafter
    rw [hrun,hend]
  · intro next hnext
    obtain ⟨old,hold,hsame⟩ : ∃ old, t.queue[v]? = some old ∧
        (old.blockId, old.object) = (next.blockId, next.object) := by
      simpa [pairs,hnext] using hafter
    have hcached : CachedAt t (slot.blockId, slot.object) := by
      refine (hnew.requeued queue v s.handles).synced hs (.inr ⟨?_,?_⟩)
      · intro he
        exact hid (List.mem_map.mpr ⟨p,hmem,he.symm⟩)
      · intro he
        exact hobject (List.mem_map.mpr ⟨p,hmem,he.symm⟩)
    have hsub : ∀ q ∈ pairs t, q ∈ pairs s := by
      rw [hpairs]
      exact fun q hq => List.mem_of_mem_eraseIdx hq
    have hlen : (pairs t).length < sectorCacheSize := by
      have hvlt := (List.getElem?_eq_some_iff.mp hp).1
      have hbound := h.bound
      rw [hpairs,List.length_eraseIdx_of_lt hvlt]
      omega
    have hadded := ht.added slot hcached
      (fun hin => hid (List.map_subset _ hsub hin))
        (fun hin => hobject (List.map_subset _ hsub hin))
      hlen
    refine ⟨{ t with queue := t.queue ++ [slot] },t.queue.set v slot,(v + 1) % sectorCacheSize,
      hadded,hs.handles,hs.latest,Nat.mod_lt _ (by decide),?_,?_,?_⟩
    · obtain ⟨hlt,hget⟩ := List.getElem?_eq_some_iff.mp hold
      have hperm : (t.queue ++ [slot]).Perm (old :: t.queue.set v slot) := by
        have hset := List.set_perm_cons_eraseIdx hlt slot
        have herase := List.getElem_cons_eraseIdx_perm hlt
        rw [hget] at herase
        exact (List.perm_append_singleton slot _).trans
          ((herase.symm.cons slot).trans ((List.Perm.swap _ _ _).trans (hset.symm.cons old)))
      rw [← hsame]
      exact hperm.map _
    · exact List.mem_map.mpr ⟨slot,List.mem_set (List.getElem?_eq_some_iff.mp hold).1 slot,rfl⟩
    · rw [hrun,hold]
      dsimp only
      rw [(Prod.mk.inj hsame).2]

def withBlock (s : Caches) (sector : Sector) (blockId : ℕ) : Caches :=
  { s with
    objects := update s.objects s.fresh ⟨sector, blockId, false⟩
    fresh := s.fresh + 1 }

theorem newBlockCache_ok (h : s.device.sectors[blockId]? = some sector) :
    s.newBlockCache blockId = .ok (withBlock s sector blockId) := by
  unfold newBlockCache BlockDevice.readBlock
  rw [h]
  rfl

theorem newBlockCache_error (h : s.device.sectors[blockId]? = none) :
    s.newBlockCache blockId = .error (.panic .explicit) := by
  unfold newBlockCache BlockDevice.readBlock
  rw [h]
  rfl

theorem Sound.of_withBlock (h : Sound s) (sector : Sector) (blockId : ℕ) :
    Sound (withBlock s sector blockId) := by
  refine ⟨h.ids,h.objects,?_,h.held,h.bound,h.hand,h.stored⟩
  intro p hp
  obtain ⟨hmade,hinside,hnamed,hcurrent,hclean⟩ := h.cached p hp
  have hsame : (withBlock s sector blockId).objects p.2 = s.objects p.2 :=
    update_of_ne hmade.ne _ _
  exact ⟨Nat.lt_succ_of_lt hmade,hinside,hsame ▸ hnamed,hsame ▸ hcurrent,hsame ▸ hclean⟩

theorem Sound.cachedAt_withBlock (h : Sound s) (hsector : s.device.sectors[blockId]? = some sector)
    (hid : blockId ∉ (pairs s).map Prod.fst) :
    CachedAt (withBlock s sector blockId) (blockId, s.fresh) := by
  have hlt := (List.getElem?_eq_some_iff.mp hsector).1
  have hstored := h.stored blockId hlt hid
  have hobject : (withBlock s sector blockId).objects s.fresh =
      ⟨sector,blockId,false⟩ := update_self _ _ _
  refine ⟨Nat.lt_succ_self _,hlt,by rw [hobject],?_,fun _ => hstored⟩
  rw [hobject]
  exact Option.some.inj (hsector.symm.trans hstored)

theorem Sound.handed (h : Sound s) {handles : List ℕ}
    (hheld : ∀ object ∈ handles, object ∈ (pairs s).map Prod.snd) :
    Sound { s with handles := handles } :=
  ⟨h.ids,h.objects,fun q hq => (h.cached q hq).requeued s.queue s.clock handles,hheld,h.bound,
    h.hand,h.stored⟩

/-- What an operation does to a sound state. -/
def Keeps (s : Caches) (op : CacheOp) : Prop :=
  Returns s op ∧ Current s op ∧ ∀ t, op.step s = .ok t → Sound t

theorem keeps_of_ok (hstep : op.step s = .ok t) (hcurrent : Current s op) (ht : Sound t) :
    Keeps s op := by
  refine ⟨⟨by rw [hstep]; nofun,by rw [hstep]; nofun⟩,hcurrent,?_⟩
  intro u hu
  rw [hstep] at hu
  cases hu
  exact ht

theorem keeps_of_panic (reason : Panic) (hstep : op.step s = .error (.panic reason))
    (hcurrent : Current s op) : Keeps s op := by
  refine ⟨⟨by rw [hstep]; nofun,by rw [hstep]; nofun⟩,hcurrent,?_⟩
  intro u hu
  rw [hstep] at hu
  cases hu

def Got (s : Caches) (blockId : ℕ) : Prop :=
  ∃ object t, s.getBlockCache blockId = .ok (object, t) ∧ Sound t ∧ (blockId, object) ∈ pairs t ∧
    t.latest = s.latest

theorem step_get (h : s.getBlockCache blockId = .ok (object, t)) :
    (CacheOp.get blockId).step s = .ok { t with handles := t.handles ++ [object] } := by
  simp only [CacheOp.step,h]
  rfl

theorem Got.keeps (h : Got s blockId) : Keeps s (.get blockId) := by
  obtain ⟨object,t,hget,ht,hmem,hlatest⟩ := h
  refine keeps_of_ok (step_get hget) ?_ (ht.handed fun held hheld => ?_)
  · intro object' t' hget'
    obtain ⟨rfl,rfl⟩ : object = object' ∧ t = t' := by simpa [hget] using hget'
    rw [(ht.cached _ hmem).current,hlatest]
  · rcases List.mem_append.mp hheld with hold | hnew
    · exact ht.held held hold
    · rw [List.mem_singleton.mp hnew]
      exact List.mem_map_of_mem (f := Prod.snd) hmem

theorem find?_eq_none_iff : (s.queue.find? fun slot => slot.blockId = blockId) = none ↔
      ∀ slot ∈ s.queue, slot.blockId ≠ blockId := by
  simp

section Miss

variable (hmiss : ∀ slot ∈ s.queue, slot.blockId ≠ blockId)

include hmiss

theorem getBlockCache_miss (hsector : s.device.sectors[blockId]? = some sector) :
    s.getBlockCache blockId = (fun t => (s.fresh, t)) <$>
      if s.queue.length = sectorCacheSize
      then (withBlock s sector blockId).replaceSlot ⟨blockId, s.fresh, 1⟩
      else .ok { withBlock s sector blockId with queue := s.queue ++ [⟨blockId, s.fresh, 1⟩] } := by
  unfold getBlockCache
  rw [find?_eq_none_iff.mpr hmiss]
  dsimp only
  rw [newBlockCache_ok hsector]
  change (if s.queue.length = sectorCacheSize then _ else _) = _
  split
  · exact bind_pure_comp _ _
  · rfl

theorem getBlockCache_outside (hsector : s.device.sectors[blockId]? = none) :
    s.getBlockCache blockId = .error (.panic .explicit) := by
  unfold getBlockCache
  rw [find?_eq_none_iff.mpr hmiss]
  dsimp only
  rw [newBlockCache_error hsector]
  rfl

theorem not_mem_ids : blockId ∉ (pairs s).map Prod.fst := by
  rw [map_fst_pairs]
  intro hmem
  obtain ⟨slot,hslot,he⟩ := List.mem_map.mp hmem
  exact hmiss slot hslot he

end Miss

theorem Sound.fresh_not_mem (h : Sound s) : s.fresh ∉ (pairs s).map Prod.snd := by
  intro hmem
  obtain ⟨p,hp,he⟩ := List.mem_map.mp hmem
  exact (h.cached p hp).made.ne he

theorem Sound.got_hit (h : Sound s) (hhit : ¬ ∀ slot ∈ s.queue, slot.blockId ≠ blockId) :
    Got s blockId := by
  cases hfind : s.queue.find? fun slot => slot.blockId = blockId with
  | none => exact absurd (find?_eq_none_iff.mp hfind) hhit
  | some slot =>
    have hid : slot.blockId = blockId := by simpa using List.find?_some hfind
    refine ⟨slot.object,s,?_,h,?_,rfl⟩
    · unfold getBlockCache
      rw [hfind]
      rfl
    · exact hid ▸ List.mem_map_of_mem (List.mem_of_find?_eq_some hfind)

theorem Sound.got_room (h : Sound s) (hmiss : ∀ slot ∈ s.queue, slot.blockId ≠ blockId)
    (hsector : s.device.sectors[blockId]? = some sector)
      (hroom : s.queue.length ≠ sectorCacheSize) :
    Got s blockId := by
  have hlen : (pairs s).length < sectorCacheSize := by
    have hbound := h.bound
    have hqueue : (pairs s).length = s.queue.length := List.length_map _
    omega
  refine ⟨s.fresh,_,?_,((h.of_withBlock sector blockId).added ⟨blockId,s.fresh,1⟩
    (h.cachedAt_withBlock hsector (not_mem_ids hmiss))
    (not_mem_ids hmiss) h.fresh_not_mem hlen),?_,rfl⟩
  · rw [getBlockCache_miss hmiss hsector,if_neg hroom]
    rfl
  · simp [pairs]

theorem getBlockCache_full (hmiss : ∀ slot ∈ s.queue, slot.blockId ≠ blockId)
    (hsector : s.device.sectors[blockId]? = some sector)
    (hfull : s.queue.length = sectorCacheSize) :
    s.getBlockCache blockId = (fun t => (s.fresh, t)) <$>
      (withBlock s sector blockId).replaceSlot ⟨blockId, s.fresh, 1⟩ := by
  rw [getBlockCache_miss hmiss hsector,if_pos hfull]

theorem Sound.got_spare (h : Sound s) (hmiss : ∀ slot ∈ s.queue, slot.blockId ≠ blockId)
    (hsector : s.device.sectors[blockId]? = some sector)
    (hfull : s.queue.length = sectorCacheSize) (hspare : Spare s (.get blockId)) :
    Got s blockId := by
  obtain ⟨i,hi,next,hnext,hfree⟩ :=
    hspare (List.getElem?_eq_some_iff.mp hsector).1 hmiss hfull
  obtain ⟨u,queue,clock,hu,hhandles,hlatest,hclock,hperm,hmem,hrun⟩ :=
    ((h.of_withBlock sector blockId).replaced ⟨blockId,s.fresh,1⟩
      (h.cachedAt_withBlock hsector (not_mem_ids hmiss))
        (not_mem_ids hmiss) h.fresh_not_mem hfull hi).2 next hnext
  obtain ⟨t,hdrop,ht,hs⟩ := hu.dropped hperm (by rw [hhandles]; exact hfree) hclock
  refine ⟨s.fresh,t,?_,ht,?_,hs.latest.trans hlatest⟩
  · rw [getBlockCache_full hmiss hsector hfull,hrun,hdrop]
    rfl
  · rw [hs.pairs_eq]
    exact hmem

theorem replaceSlot_endless (h : s.clockHand.chosen (s.queue.rotate s.clock) = none) (slot : Slot) :
    s.replaceSlot slot = .error .endless := by
  have hpinned : ∀ e ∈ s.queue, s.clockHand.pinned e = true := fun e he =>
    Clock.chosen_eq_none h e (List.mem_rotate.mpr he)
  unfold replaceSlot
  rw [Clock.sweep_pinned hpinned]

section

variable (h : Sound s)
include h

theorem Sound.spare_of_coherent (hreturns : Returns s (.get blockId))
    (hnext : ∀ t, (CacheOp.get blockId).step s = .ok t → Coherent t) :
    Spare s (.get blockId) := by
  intro hlt hmiss hfull
  obtain ⟨sector,hsector⟩ : ∃ sector, s.device.sectors[blockId]? = some sector :=
    ⟨_,List.getElem?_eq_getElem hlt⟩
  have hget := getBlockCache_full hmiss hsector hfull
  have hstop : ∀ stop, (withBlock s sector blockId).replaceSlot ⟨blockId,s.fresh,1⟩ = .error stop →
      (CacheOp.get blockId).step s = .error stop := by
    intro stop hstop
    simp only [CacheOp.step,hget,hstop]
    rfl
  cases hi : s.clockHand.chosen (s.queue.rotate s.clock) with
  | none =>
    exact absurd (hstop .endless (replaceSlot_endless (s := withBlock s sector blockId) hi _))
      hreturns.2
  | some i =>
    refine ⟨i,rfl,?_⟩
    obtain ⟨hend,hbehind⟩ := (h.of_withBlock sector blockId).replaced ⟨blockId,s.fresh,1⟩
      (h.cachedAt_withBlock hsector (not_mem_ids hmiss))
        (not_mem_ids hmiss) h.fresh_not_mem hfull hi
    cases hslot : s.queue[(s.clock + i) % sectorCacheSize + 1]? with
    | none => exact absurd (hstop .index (hend hslot)) hreturns.1
    | some next =>
      refine ⟨next,rfl,?_⟩
      intro hheld
      obtain ⟨u,queue,clock,hu,hhandles,-,-,hperm,-,hrun⟩ := hbehind next hslot
      have hmem : next.object ∈ u.handles := by rw [hhandles]; exact hheld
      have hkept : { u with queue := queue, clock := clock }.dropArc next.object =
          .ok { u with queue := queue, clock := clock } := by
        have hpos := List.count_pos_iff.mpr hmem
        unfold dropArc
        rw [if_neg (by unfold strongCount; dsimp only; omega)]
        rfl
      rw [hrun,hkept] at hget
      have hin := (hnext _ (step_get hget)).held next.object (List.mem_append_left _ hmem)
      have hnodup := List.nodup_cons.mp ((hperm.map Prod.snd).nodup_iff.mp hu.objects)
      rw [map_snd_pairs] at hnodup
      exact hnodup.1 hin

theorem Sound.pair_of_handle {handle : ℕ} (hh : s.handles[handle]? = some object) :
    ∃ id, (id, object) ∈ pairs s := by
  have hmem := h.held object (List.mem_of_getElem? hh)
  simpa using hmem

theorem Sound.get_keeps (hspare : Spare s (.get blockId)) : Keeps s (.get blockId) := by
  by_cases hmiss : ∀ slot ∈ s.queue, slot.blockId ≠ blockId
  · cases hsector : s.device.sectors[blockId]? with
    | none =>
      have hget := getBlockCache_outside hmiss hsector
      apply keeps_of_panic .explicit
      · simp only [CacheOp.step,hget]
        rfl
      · intro object t ht
        rw [hget] at ht
        cases ht
    | some sector =>
      by_cases hfull : s.queue.length = sectorCacheSize
      · exact (h.got_spare hmiss hsector hfull hspare).keeps
      · exact (h.got_room hmiss hsector hfull).keeps
  · exact (h.got_hit hmiss).keeps

theorem Sound.read_keeps (handle offset len : ℕ) : Keeps s (.read handle offset len) := by
  have hcurrent : Current s (.read handle offset len) := by
    intro object bytes hh hread
    obtain ⟨id,hid⟩ := h.pair_of_handle hh
    have hcached := h.cached _ hid
    unfold readBytes at hread
    split at hread
    · cases hread
      rw [hcached.named,hcached.current]
    · cases hread
  cases hh : s.handles[handle]? with
  | none => exact keeps_of_ok (by simp only [CacheOp.step,hh]; rfl) hcurrent h
  | some object =>
    by_cases hin : inBlock offset len
    · apply keeps_of_ok (t := s) _ hcurrent h
      simp only [CacheOp.step,hh,readBytes,if_pos hin]
      rfl
    · apply keeps_of_panic .assertion _ hcurrent
      simp only [CacheOp.step,hh,readBytes,if_neg hin]
      rfl

theorem Sound.write_keeps (handle offset : ℕ) (bytes : List UInt8) :
    Keeps s (.write handle offset bytes) := by
  cases hh : s.handles[handle]? with
  | none => exact keeps_of_ok (by simp only [CacheOp.step,hh]; rfl) trivial h
  | some object =>
    by_cases hin : inBlock offset bytes.length
    · obtain ⟨id,hid⟩ := h.pair_of_handle hh
      have hhere := h.cached _ hid
      refine keeps_of_ok (by simp only [CacheOp.step,hh,writeBytes,dif_pos hin]; rfl) trivial ?_
      refine ⟨h.ids,h.objects,?_,h.held,h.bound,h.hand,?_⟩
      · intro q hq
        have hold := h.cached q hq
        by_cases hqp : q = (id, object)
        · subst hqp
          refine ⟨hold.made,hold.inside,?_,?_,?_⟩
          · simp [hold.named]
          · simp [hold.named,hold.current]
          · simp
        · have hobject : q.2 ≠ object := fun he =>
            hqp (List.inj_on_of_nodup_map h.objects hq hid he)
          have hblock : q.1 ≠ (s.objects object).blockId := fun he =>
            hqp (List.inj_on_of_nodup_map h.ids hq hid (he.trans hhere.named))
          refine ⟨hold.made,hold.inside,?_,?_,?_⟩
          · dsimp only
            rw [update_of_ne hobject,hold.named]
          · dsimp only
            rw [update_of_ne hobject,update_of_ne hblock,hold.current]
          · dsimp only
            rw [update_of_ne hobject,update_of_ne hblock]
            exact hold.clean
      · intro id' hlt hnot
        have hne : id' ≠ (s.objects object).blockId := by
          rw [hhere.named]
          rintro rfl
          exact hnot (List.mem_map_of_mem hid)
        dsimp only
        rw [update_of_ne hne]
        exact h.stored id' hlt hnot
    · refine keeps_of_panic .assertion ?_ trivial
      simp only [CacheOp.step,hh,writeBytes,dif_neg hin]

theorem Sound.release_keeps (handle : ℕ) : Keeps s (.release handle) := by
  cases hh : s.handles[handle]? with
  | none => exact keeps_of_ok (by simp only [CacheOp.step,hh]; rfl) trivial h
  | some object =>
    obtain ⟨id,hid⟩ := h.pair_of_handle hh
    have hcount : { s with handles := s.handles.eraseIdx handle }.strongCount object ≠ 0 := by
      have hin : object ∈ s.queue.map Slot.object := by
        rw [← map_snd_pairs]
        exact List.mem_map_of_mem (f := Prod.snd) hid
      have hpos := List.count_pos_iff.mpr hin
      unfold strongCount
      dsimp only
      omega
    exact keeps_of_ok (by simp only [CacheOp.step,hh,dropArc,if_neg hcount]; rfl) trivial
      (h.handed fun object' hmem => h.held object' (List.mem_of_mem_eraseIdx hmem))

theorem Sound.syncSlots {l : List Slot} (hl : ∀ slot ∈ l, (slot.blockId, slot.object) ∈ pairs s) :
    ∃ t, l.foldlM (fun s slot => s.sync slot.object) s = .ok t ∧ Sound t := by
  induction l generalizing s with
  | nil => exact ⟨s,rfl,h⟩
  | cons slot l ih =>
    have hmem := hl slot List.mem_cons_self
    obtain ⟨u,hsync,hs⟩ := sync_ok (h.cached _ hmem)
    obtain ⟨t,hrun,ht⟩ := ih (h.synced hmem hs) fun slot' hslot' => by
      rw [hs.pairs_eq]
      exact hl slot' (List.mem_cons_of_mem _ hslot')
    refine ⟨t,?_,ht⟩
    rw [List.foldlM_cons,hsync]
    exact hrun

theorem Sound.syncAll_keeps : Keeps s .syncAll := by
  obtain ⟨t,hrun,ht⟩ := h.syncSlots (l := s.queue) fun slot hslot =>
    List.mem_map_of_mem (f := fun slot => (slot.blockId, slot.object)) hslot
  exact keeps_of_ok hrun trivial ht

theorem Sound.keeps (hspare : Spare s op) : Keeps s op := by
  cases op with
  | get blockId => exact h.get_keeps hspare
  | read handle offset len => exact h.read_keeps handle offset len
  | write handle offset bytes => exact h.write_keeps handle offset bytes
  | release handle => exact h.release_keeps handle
  | syncAll => exact h.syncAll_keeps

end

theorem CoherentAlong.coherent (h : CoherentAlong s ops) : Coherent s := by
  cases ops with
  | nil => exact h
  | cons op ops => exact h.1

theorem Sound.coherentAlong_iff (h : Sound s) (ops : List CacheOp) :
    CoherentAlong s ops ↔ SpareAlong s ops := by
  induction ops generalizing s with
  | nil => exact iff_of_true h.coherent trivial
  | cons op ops ih =>
    constructor
    · rintro ⟨-,hreturns,-,hrest⟩
      have hspare : Spare s op := by
        cases op with
        | get blockId => exact h.spare_of_coherent hreturns fun t ht => (hrest t ht).coherent
        | _ => trivial
      exact ⟨hspare,fun t ht => (ih ((h.keeps hspare).2.2 t ht)).mp (hrest t ht)⟩
    · rintro ⟨hspare,hrest⟩
      obtain ⟨hreturns,hcurrent,hnext⟩ := h.keeps hspare
      exact ⟨h.coherent,hreturns,hcurrent,fun t ht => (ih (hnext t ht)).mpr (hrest t ht)⟩

/-- A sequence of operations keeps the cache coherent exactly if every miss on a full queue finds a
slot to drain with another spare one behind it. -/
theorem cache_coherent_iff (device : BlockDevice) (objects : ℕ → BlockCache)
    (ops : List CacheOp) : CoherentAlong (booted device objects) ops ↔
      SpareAlong (booted device objects) ops :=
  (sound_booted device objects).coherentAlong_iff ops

def run (s : Caches) (ops : List CacheOp) : Except Stop Caches := ops.foldlM CacheOp.step s

theorem CoherentAlong.run (h : CoherentAlong s ops) (hrun : run s ops = .ok t) : Coherent t := by
  induction ops generalizing s with
  | nil =>
    cases hrun
    exact h
  | cons op ops ih =>
    unfold BlockCacheCoherence.run at hrun
    rw [List.foldlM_cons] at hrun
    cases hstep : op.step s with
    | error stop => rw [hstep] at hrun; cases hrun
    | ok u =>
      rw [hstep] at hrun
      exact ih (h.2.2.2 u hstep) hrun

def emptySector : Sector := ⟨List.replicate sectorSize 0, length_zeros⟩

def smallDisk : BlockDevice := ⟨List.replicate 65 emptySector, by decide⟩

/-- All 64 slots are filled, and block 1 is held while a 65th block is read. -/
def oneHeld : List CacheOp :=
  [.get 0, .release 0, .get 1] ++ (List.range' 2 62).flatMap (fun id => [.get id, .release 1]) ++
    [.get 64]

def strayHandle (object : ℕ) : Except Stop Caches → Bool
  | .ok t => object ∈ t.handles && !(object ∈ t.queue.map Slot.object)
  | .error _ => false

theorem held_thrown_out :
    ¬ CoherentAlong (booted smallDisk fun _ => ⟨emptySector, 0, false⟩) oneHeld := by
  intro h
  have hstray : strayHandle 1 (run (booted smallDisk fun _ => ⟨emptySector,0,false⟩) oneHeld) =
      true := by
    decide +kernel
  cases hrun : run (booted smallDisk fun _ => ⟨emptySector,0,false⟩) oneHeld with
  | error stop =>
    rw [hrun] at hstray
    cases hstray
  | ok t =>
    rw [hrun] at hstray
    obtain ⟨hheld,hgone⟩ : 1 ∈ t.handles ∧ 1 ∉ t.queue.map Slot.object := by
      simpa only [strayHandle,Bool.and_eq_true,decide_eq_true_eq,Bool.not_eq_true',
        decide_eq_false_iff_not] using hstray
    exact hgone ((h.run hrun).held 1 hheld)

end DuckOs.BlockCacheCoherence
