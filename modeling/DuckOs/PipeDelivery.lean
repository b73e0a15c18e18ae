import DuckOs.PipeModel
import DuckOs.RingQueues

namespace DuckOs.PipeDelivery
open ExecutionRules PipeModel RingQueues Function

variable {len written i : ℕ} {buf got q : List UInt8} {alive : Bool} {p : PipeState}
  {rb : PipeRingBuffer}

section Ring

structure Represents (rb : PipeRingBuffer) (q : List UInt8) : Prop where
  le : q.length ≤ maxPipeBuffer
  tail : rb.tail = cell rb.head q.length
  bytes : contents rb.buf rb.head q.length = q
  empty : rb.status = .Empty ↔ q.length = 0
  full : rb.status = .Full ↔ q.length = maxPipeBuffer

def SameEnds (rb rb' : PipeRingBuffer) : Prop :=
  rb'.readEnd = rb.readEnd ∧ rb'.writeEnd = rb.writeEnd

theorem represents_makePipes : Represents makePipes [] :=
  ⟨Nat.zero_le _,by simp [makePipes,PipeRingBuffer.new],rfl,by simp [makePipes,PipeRingBuffer.new],
    by decide⟩

theorem availableRead_eq (h : Represents rb q) : rb.availableRead = q.length := by
  have hle := h.le
  have htail : rb.tail.val = (rb.head.val + q.length) % maxPipeBuffer := by
    rw [h.tail,val_cell]
  unfold PipeRingBuffer.availableRead
  by_cases hz : q.length = 0
  · simp [h.empty.mpr hz,hz]
  · rw [if_neg fun he => hz (h.empty.mp he)]
    rcases Nat.lt_or_ge (rb.head.val + q.length) maxPipeBuffer with hlt | hge
    · rw [Nat.mod_eq_of_lt hlt] at htail
      rw [if_pos (by omega)]
      omega
    · rw [Nat.mod_eq_sub_mod hge,Nat.mod_eq_of_lt (by omega)] at htail
      rw [if_neg (by omega)]
      omega

theorem availableWrite_eq (h : Represents rb q) :
    rb.availableWrite = maxPipeBuffer - q.length := by
  unfold PipeRingBuffer.availableWrite
  split_ifs with hfull
  · rw [h.full.mp hfull,Nat.sub_self]
  · rw [availableRead_eq h]

theorem readByte_takes {c : UInt8} (h : Represents rb (c :: q)) :
    ∃ rb', rb.readByte = (some c, rb') ∧ Represents rb' q ∧ SameEnds rb rb' := by
  have hne : rb.status ≠ .Empty := fun he => by simpa using h.empty.mp he
  have hle := h.le
  have hbytes := h.bytes
  rw [List.length_cons] at hle
  rw [List.length_cons,contents_pop,List.cons.injEq] at hbytes
  have htail : rb.tail = cell (rb.head + 1) q.length := by
    rw [h.tail,cell_step,List.length_cons]
  have hempty : rb.head + 1 = rb.tail ↔ q.length = 0 := by
    rw [htail,eq_comm,cell_eq_head_iff (by omega)]
    omega
  refine ⟨{ rb with
    status := if rb.head + 1 = rb.tail then .Empty else .HasSome
    head := rb.head + 1 },by simp [PipeRingBuffer.readByte,hne,hbytes.1],?_,rfl,rfl⟩
  refine ⟨by omega,htail,hbytes.2,?_,?_⟩
  · by_cases hq : q.length = 0 <;> simp [hempty,hq]
  · by_cases hq : q.length = 0
    · rw [if_pos (hempty.mpr hq)]
      simp [hq,maxPipeBuffer]
    · simp [hempty,hq]
      omega

theorem writeByte_puts (h : Represents rb q) (hlt : q.length < maxPipeBuffer) (c : UInt8) :
    ∃ rb', rb.writeByte c = (true, rb') ∧ Represents rb' (q ++ [c]) ∧ SameEnds rb rb' := by
  have hne : rb.status ≠ .Full := fun hf => by
    have := h.full.mp hf
    omega
  have hnext : rb.tail + 1 = cell rb.head (q.length + 1) := by rw [h.tail,cell_succ]
  have hfull : rb.tail + 1 = rb.head ↔ q.length + 1 = maxPipeBuffer := by
    rw [hnext,cell_eq_head_iff (by omega)]
    omega
  refine ⟨{ rb with
    status := if rb.tail + 1 = rb.head then .Full else .HasSome
    buf := update rb.buf rb.tail c
    tail := rb.tail + 1 },by simp [PipeRingBuffer.writeByte,hne],?_,rfl,rfl⟩
  have hpos : maxPipeBuffer ≠ 0 := NeZero.ne _
  refine ⟨by simpa using hlt,by simpa using hnext,?_,?_,?_⟩
  · rw [List.length_append,List.length_singleton,h.tail,contents_push _ _ hlt,h.bytes]
  · by_cases hq : q.length + 1 = maxPipeBuffer <;> simp [hfull,hq,hpos]
  · by_cases hq : q.length + 1 = maxPipeBuffer <;> simp [hfull,hq]

end Ring

section Rounds

theorem readBytes_takes : ∀ (count : ℕ) (rb : PipeRingBuffer) (q got : List UInt8),
    Represents rb q → count ≤ q.length → got.length < len →
    ∃ rb' k, readBytes len count rb got =
        .ok (rb', got ++ q.take k, if got.length + k = len then .returned else .again) ∧
      k ≤ q.length ∧ got.length + k ≤ len ∧ (got.length + k = len ∨ k = count) ∧
      Represents rb' (q.drop k) ∧ SameEnds rb rb' := by
  intro count
  induction count with
  | zero =>
    intro rb q got h _ hlt
    refine ⟨rb,0,?_,by simp,by omega,.inr rfl,by simpa using h,rfl,rfl⟩
    simp [readBytes,hlt.ne]
  | succ count ih =>
    intro rb q got h hcount hlt
    cases q with
    | nil => simp at hcount
    | cons c q =>
      obtain ⟨rb₁,hread,h₁,hends⟩ := readByte_takes h
      by_cases hfull : got.length + 1 = len
      · refine ⟨rb₁,1,?_,by simp,by omega,.inl hfull,by simpa using h₁,hends⟩
        simp [readBytes,hread,hfull]
      · have hcount' : count ≤ q.length := by simpa using hcount
        obtain ⟨rb',k,hr,hk,hle,hor,h',hends'⟩ :=
          ih rb₁ q (got ++ [c]) h₁ hcount' (by simp; omega)
        simp only [List.length_append,List.length_singleton] at hr hle hor
        refine ⟨rb',k + 1,?_,by simpa using hk,by omega,by omega,by simpa using h',
          hends'.1.trans hends.1,hends'.2.trans hends.2⟩
        simp only [readBytes,hread,if_neg hfull,hr]
        simp [Nat.add_assoc,Nat.add_comm 1 k]

theorem writeBytes_puts : ∀ (count : ℕ) (rb : PipeRingBuffer) (q : List UInt8)
    (written : ℕ) (accepted : List UInt8),
    Represents rb q → count + q.length ≤ maxPipeBuffer → written < buf.length →
    ∃ rb' k, writeBytes buf count rb written accepted =
        .ok (rb', written + k, accepted ++ (buf.drop written).take k,
          if written + k = buf.length then .returned else .again) ∧
      written + k ≤ buf.length ∧ (written + k = buf.length ∨ k = count) ∧
      Represents rb' (q ++ (buf.drop written).take k) ∧ SameEnds rb rb' := by
  intro count
  induction count with
  | zero =>
    intro rb q written accepted h _ hlt
    refine ⟨rb,0,?_,by omega,.inr rfl,by simpa using h,rfl,rfl⟩
    simp [writeBytes,hlt.ne]
  | succ count ih =>
    intro rb q written accepted h hcount hlt
    obtain ⟨rb₁,hwrite,h₁,hends⟩ := writeByte_puts h (by omega) buf[written]
    have hdrop : buf.drop written = buf[written] :: buf.drop (written + 1) :=
      List.drop_eq_getElem_cons hlt
    by_cases hfull : written + 1 = buf.length
    · rw [hdrop]
      refine ⟨rb₁,1,?_,by omega,.inl hfull,h₁,hends⟩
      simp [writeBytes,hwrite,hfull,hlt]
    · obtain ⟨rb',k,hr,hle,hor,h',hends'⟩ := ih rb₁ (q ++ [buf[written]]) (written + 1)
        (accepted ++ [buf[written]]) h₁ (by simp; omega) (by omega)
      refine ⟨rb',k + 1,?_,by omega,by omega,?_,hends'.1.trans hends.1,
        hends'.2.trans hends.2⟩
      · simp only [writeBytes,List.getElem?_eq_getElem hlt,hwrite,if_true,if_neg hfull,hr]
        rw [hdrop,List.take_succ_cons]
        simp [Nat.add_assoc,Nat.add_comm 1 k]
      · rw [hdrop,List.take_succ_cons]
        simpa using h'

theorem readRound_takes (h : Represents rb q) (hend : rb.writeEnd = some alive)
    (hlt : got.length < len) :
    ∃ rb' k round, readRound rb len got = .ok (rb', got ++ q.take k, round) ∧
      k ≤ q.length ∧ got.length + k ≤ len ∧ (round = .again → got.length + k < len) ∧
      (round = .returned → got.length + k < len → alive = false ∧ q = []) ∧
      Represents rb' (q.drop k) ∧ SameEnds rb rb' := by
  unfold readRound
  rw [availableRead_eq h]
  by_cases hz : q.length = 0
  · have hq := List.eq_nil_of_length_eq_zero hz
    subst hq
    rw [if_pos hz,PipeRingBuffer.isWriteEndClosed,hend]
    cases alive with
    | true => exact ⟨rb,0,.again,by simp; rfl,by simp,by omega,by simpa using hlt,by simp,
        by simpa using h,rfl,rfl⟩
    | false => exact ⟨rb,0,.returned,by simp; rfl,by simp,by omega,by simp,by simp,
        by simpa using h,rfl,rfl⟩
  · rw [if_neg hz]
    obtain ⟨rb',k,hr,hk,hle,-,h',hends⟩ := readBytes_takes q.length rb q got h le_rfl hlt
    refine ⟨rb',k,_,hr,hk,hle,?_,?_,h',hends⟩
    · by_cases hfull : got.length + k = len <;> simp [hfull]
      omega
    · by_cases hfull : got.length + k = len <;> simp [hfull]

theorem writeRound_puts (h : Represents rb q) (hend : rb.readEnd = some alive)
    (hlt : written < buf.length) : ∃ rb' k round, writeRound rb buf written =
        .ok (rb', written + k, (buf.drop written).take k, round) ∧
      written + k ≤ buf.length ∧ (round = .again → written + k < buf.length) ∧
      Represents rb' (q ++ (buf.drop written).take k) ∧ SameEnds rb rb' := by
  unfold writeRound
  rw [availableWrite_eq h]
  by_cases hz : maxPipeBuffer - q.length = 0
  · rw [if_pos hz,PipeRingBuffer.isReadEndClosed,hend]
    cases alive with
    | true => exact ⟨rb,0,.again,by simp; rfl,by omega,by simpa using hlt,by simpa using h,
        rfl,rfl⟩
    | false => exact ⟨rb,0,.returned,by simp; rfl,by omega,by simp,by simpa using h,rfl,rfl⟩
  · rw [if_neg hz]
    obtain ⟨rb',k,hr,hle',-,h',hends⟩ :=
      writeBytes_puts (maxPipeBuffer - q.length) rb q written [] h (by omega) hlt
    refine ⟨rb',k,_,by simpa using hr,hle',?_,h',hends⟩
    by_cases hfull : written + k = buf.length <;> simp [hfull]
    omega

end Rounds

def bytesOf (log : List (ℕ × UInt8)) (i : ℕ) : List UInt8 :=
  (log.filter fun e => e.1 = i).map Prod.snd

theorem bytesOf_self (log : List (ℕ × UInt8)) (l : List UInt8) (i : ℕ) :
    bytesOf (log ++ l.map fun c => (i, c)) i = bytesOf log i ++ l := by
  simp [bytesOf,List.filter_map,comp_def]

theorem bytesOf_other (log : List (ℕ × UInt8)) (l : List UInt8) {j : ℕ} (h : j ≠ i) :
    bytesOf (log ++ l.map fun c => (i, c)) j = bytesOf log j := by
  simp [bytesOf,List.filter_map,comp_def,Ne.symm h]

theorem bytesOf_fresh {log : List (ℕ × UInt8)} (h : ∀ e ∈ log, e.1 < i) : bytesOf log i = [] := by
  have hnone : log.filter (fun e => e.1 = i) = [] := by
    simpa [List.filter_eq_nil_iff] using fun a b hab => (h (a, b) hab).ne
  rw [bytesOf,hnone,List.map_nil]

def CallRight (p : PipeState) (i : ℕ) : Call → Prop
  | .read len got returned =>
    got = bytesOf p.removed i ∧ got.length ≤ len ∧ (returned = false → got.length < len)
  | .write buf written returned =>
    buf.take written = bytesOf p.inserted i ∧ written ≤ buf.length ∧
      (returned = false → written < buf.length)

structure PipeInv (p : PipeState) : Prop where
  queue : ∃ q, Represents p.buffer q ∧ p.inserted.map Prod.snd = p.removed.map Prod.snd ++ q
  readEnd : ∃ alive, p.buffer.readEnd = some alive
  writeEnd : ∃ alive, p.buffer.writeEnd = some alive
  calls : ∀ i call, p.calls[i]? = some call → CallRight p i call
  inserted : ∀ e ∈ p.inserted, e.1 < p.calls.length
  removed : ∀ e ∈ p.removed, e.1 < p.calls.length

theorem made_inv : PipeInv PipeState.made :=
  ⟨⟨[],represents_makePipes,rfl⟩,⟨true,rfl⟩,⟨true,rfl⟩,by simp [PipeState.made],
    by simp [PipeState.made],by simp [PipeState.made]⟩

theorem start_inv (inv : PipeInv p) (call : Call)
    (hcall : ∀ p', p'.inserted = p.inserted → p'.removed = p.removed →
      CallRight p' p.calls.length call) :
    PipeInv { p with calls := p.calls ++ [call] } := by
  refine ⟨inv.queue,inv.readEnd,inv.writeEnd,fun i c hc => ?_,fun e he => ?_,fun e he => ?_⟩
  · rcases Nat.lt_trichotomy i p.calls.length with hi | hi | hi
    · rw [List.getElem?_append_left hi] at hc
      have h := inv.calls i c hc
      cases c <;> exact h
    · subst hi
      simp at hc
      subst hc
      exact hcall _ rfl rfl
    · rw [List.getElem?_eq_none (by simp; omega)] at hc
      cases hc
  · have := inv.inserted e he
    simp
    omega
  · have := inv.removed e he
    simp
    omega

theorem round_calls (inv : PipeInv p) {call : Call} {p' : PipeState}
    (hcalls : p'.calls = p.calls.set i call) (hcall : CallRight p' i call)
    (hins : ∀ j, j ≠ i → bytesOf p'.inserted j = bytesOf p.inserted j)
    (hrem : ∀ j, j ≠ i → bytesOf p'.removed j = bytesOf p.removed j) (j : ℕ) (c : Call)
    (hc : p'.calls[j]? = some c) : CallRight p' j c := by
  rw [hcalls,List.getElem?_set] at hc
  split at hc
  · rename_i hij
    split at hc
    · cases hc
      exact hij ▸ hcall
    · cases hc
  · rename_i hij
    have h := inv.calls j c hc
    cases c with
    | read len got returned => simpa [CallRight,hrem j (Ne.symm hij)] using h
    | write buf written returned => simpa [CallRight,hins j (Ne.symm hij)] using h

theorem roundOf_read (inv : PipeInv p) (hi : p.calls[i]? = some (.read len got false)) :
    ∃ p' got' returned, roundOf p i = .ok p' ∧ PipeInv p' ∧
      p'.calls[i]? = some (.read len got' returned) ∧
      (returned = true → got'.length < len →
        p'.buffer.writeEnd = some false ∧ p'.buffer.availableRead = 0) := by
  obtain ⟨hgot,-,hlt⟩ := inv.calls i _ hi
  obtain ⟨q,hq,hlog⟩ := inv.queue
  obtain ⟨alive,hend⟩ := inv.writeEnd
  obtain ⟨rb',k,round,hr,hk,hle,hagain,hshort,hq',hends⟩ :=
    readRound_takes hq hend (hlt rfl)
  have hlt' : i < p.calls.length := (List.getElem?_eq_some_iff.mp hi).choose
  let p' : PipeState := { p with
    buffer := rb'
    calls := p.calls.set i (.read len (got ++ q.take k) (isDone round))
    removed := p.removed ++ (q.take k).map fun c => (i, c) }
  have hstep : roundOf p i = .ok p' := by
    simp only [roundOf,hi,hr,bind,Except.bind]
    simp [p']
  have hcall : CallRight p' i (.read len (got ++ q.take k) (isDone round)) := by
    refine ⟨?_,?_,fun hd => ?_⟩
    · rw [hgot]
      exact (bytesOf_self _ _ _).symm
    · simp
      omega
    · cases round with
      | returned => cases hd
      | again =>
        have := hagain rfl
        simp
        omega
  refine ⟨p',got ++ q.take k,isDone round,hstep,⟨⟨q.drop k,hq',?_⟩,?_,?_,?_,?_,?_⟩,?_,
    fun hd hs => ?_⟩
  · simp [p',hlog,List.map_map,comp_def]
  · obtain ⟨alive',hend'⟩ := inv.readEnd
    exact ⟨alive',hends.1.trans hend'⟩
  · exact ⟨alive,hends.2.trans hend⟩
  · exact round_calls inv rfl hcall (fun _ _ => rfl) fun j hj => bytesOf_other _ _ hj
  · simpa [p'] using inv.inserted
  · intro e he
    simp only [p',List.mem_append,List.mem_map,List.length_set] at he ⊢
    rcases he with he | ⟨c,-,rfl⟩
    · exact inv.removed e he
    · exact hlt'
  · simp [p',hlt']
  · cases round with
    | again => cases hd
    | returned =>
      have hlen : (got ++ q.take k).length = got.length + k := by simp [hk]
      obtain ⟨halive,hnil⟩ := hshort rfl (hlen ▸ hs)
      subst halive hnil
      refine ⟨hends.2.trans hend,?_⟩
      rw [availableRead_eq hq',List.drop_nil,List.length_nil]

theorem roundOf_write (inv : PipeInv p) (hi : p.calls[i]? = some (.write buf written false)) :
    ∃ p' written' returned, roundOf p i = .ok p' ∧ PipeInv p' ∧
      p'.calls[i]? = some (.write buf written' returned) := by
  obtain ⟨hbuf,-,hlt⟩ := inv.calls i _ hi
  obtain ⟨q,hq,hlog⟩ := inv.queue
  obtain ⟨alive,hend⟩ := inv.readEnd
  obtain ⟨rb',k,round,hr,hle,hagain,hq',hends⟩ := writeRound_puts hq hend (hlt rfl)
  have hlt' : i < p.calls.length := (List.getElem?_eq_some_iff.mp hi).choose
  let p' : PipeState := { p with
    buffer := rb'
    calls := p.calls.set i (.write buf (written + k) (isDone round))
    inserted := p.inserted ++ ((buf.drop written).take k).map fun c => (i, c) }
  have hstep : roundOf p i = .ok p' := by
    simp only [roundOf,hi,hr,bind,Except.bind]
    rfl
  have hcall : CallRight p' i (.write buf (written + k) (isDone round)) := by
    refine ⟨?_,hle,fun hd => ?_⟩
    · refine Eq.trans ?_ (bytesOf_self _ _ _).symm
      rw [← hbuf]
      exact List.take_add
    · cases round with
      | returned => cases hd
      | again => exact hagain rfl
  refine ⟨p',written + k,isDone round,hstep,
    ⟨⟨q ++ (buf.drop written).take k,hq',?_⟩,?_,?_,?_,?_,?_⟩,?_⟩
  · simp [p',hlog,List.map_map,comp_def]
  · exact ⟨alive,hends.1.trans hend⟩
  · obtain ⟨alive',hend'⟩ := inv.writeEnd
    exact ⟨alive',hends.2.trans hend'⟩
  · exact round_calls inv rfl hcall (fun j hj => bytesOf_other _ _ hj) fun _ _ => rfl
  · intro e he
    simp only [p',List.mem_append,List.mem_map,List.length_set] at he ⊢
    rcases he with he | ⟨c,-,rfl⟩
    · exact inv.inserted e he
    · exact hlt'
  · simpa [p'] using inv.removed
  · simp [p',hlt']

theorem step_inv (inv : PipeInv p) (op : PipeOp) (hop : op.Given) :
    ∃ p', op.step p = .ok p' ∧ PipeInv p' := by
  cases op with
  | startRead len =>
    refine ⟨_,rfl,start_inv inv _ fun p' _ hrem => ?_⟩
    simpa [CallRight,hrem,bytesOf_fresh inv.removed] using (show 0 < len from hop)
  | startWrite buf =>
    refine ⟨_,rfl,start_inv inv _ fun p' hins _ => ?_⟩
    simpa [CallRight,hins,bytesOf_fresh inv.inserted,List.length_pos_iff] using
      (show buf ≠ [] from hop)
  | round i =>
    rcases hi : p.calls[i]? with _ | ⟨len,got,_ | _⟩ | ⟨buf,written,_ | _⟩
    · exact ⟨p,by simp [PipeOp.step,roundOf,hi],inv⟩
    · obtain ⟨p',_,_,hstep,inv',_⟩ := roundOf_read inv hi
      exact ⟨p',hstep,inv'⟩
    · exact ⟨p,by simp [PipeOp.step,roundOf,hi],inv⟩
    · obtain ⟨p',_,_,hstep,inv',_⟩ := roundOf_write inv hi
      exact ⟨p',hstep,inv'⟩
    · exact ⟨p,by simp [PipeOp.step,roundOf,hi],inv⟩
  | dropReadEnd =>
    obtain ⟨q,hq,hlog⟩ := inv.queue
    refine ⟨_,rfl,⟨q,⟨hq.le,hq.tail,hq.bytes,hq.empty,hq.full⟩,hlog⟩,⟨false,rfl⟩,
      inv.writeEnd,fun i c hc => ?_,inv.inserted,inv.removed⟩
    have h := inv.calls i c hc
    cases c <;> exact h
  | dropWriteEnd =>
    obtain ⟨q,hq,hlog⟩ := inv.queue
    refine ⟨_,rfl,⟨q,⟨hq.le,hq.tail,hq.bytes,hq.empty,hq.full⟩,hlog⟩,inv.readEnd,
      ⟨false,rfl⟩,fun i c hc => ?_,inv.inserted,inv.removed⟩
    have h := inv.calls i c hc
    cases c <;> exact h

/-- What the pipe promises in a state: the order of the bytes, the two counts, and that what each
call reports is what went through the ring. -/
structure Delivers (p : PipeState) : Prop where
  order : p.removed.map Prod.snd <+: p.inserted.map Prod.snd
  reads : ∀ i len got returned, p.calls[i]? = some (.read len got returned) →
    got = bytesOf p.removed i ∧ got.length ≤ len
  writes : ∀ i buf written returned, p.calls[i]? = some (.write buf written returned) →
    buf.take written = bytesOf p.inserted i ∧ written ≤ buf.length
  availableRead : p.buffer.availableRead = p.inserted.length - p.removed.length
  availableWrite : p.buffer.availableWrite = maxPipeBuffer - p.buffer.availableRead

theorem delivers_of_inv (inv : PipeInv p) : Delivers p := by
  obtain ⟨q,hq,hlog⟩ := inv.queue
  have hlen := congrArg List.length hlog
  simp only [List.length_append,List.length_map] at hlen
  have hread := availableRead_eq hq
  refine ⟨hlog ▸ List.prefix_append _ _,fun i len got returned hi => ?_,
    fun i buf written returned hi => ?_,by omega,by rw [availableWrite_eq hq,hread]⟩
  · obtain ⟨hgot,hle,-⟩ := inv.calls i _ hi
    exact ⟨hgot,hle⟩
  · obtain ⟨hbuf,hle,-⟩ := inv.calls i _ hi
    exact ⟨hbuf,hle⟩

/-- In every run of a new pipe, whatever calls are made and however their rounds are interleaved
with each other and with the loss of the ends, the pipe delivers; no further step stops; and a
`read` that comes back with less than its buffer has found the write end closed and the pipe
empty. -/
theorem pipe_delivers {p : PipeState}
    (run : Runs PipeOp.exec (fun op _ _ => op.Given) () PipeState.made () p) :
    Delivers p ∧ ∀ op : PipeOp, op.Given → ∃ p', op.exec () p = .ok () p' ∧ Delivers p' ∧
      ∀ i len got got', op = .round i → p.calls[i]? = some (.read len got false) →
        p'.calls[i]? = some (.read len got' true) → got'.length < len →
        p'.buffer.isWriteEndClosed = .ok true ∧ p'.buffer.availableRead = 0 := by
  have inv : PipeInv p := by
    refine run.invariant (fun _ p => PipeInv p) (fun op _ p inv hop => ?_) made_inv
    obtain ⟨p',hstep,inv'⟩ := step_inv inv op hop
    exact holds_ok (t := p') (a := ()) (by simp [PipeOp.exec,hstep]) inv'
  refine ⟨delivers_of_inv inv,fun op hop => ?_⟩
  obtain ⟨p',hstep,inv'⟩ := step_inv inv op hop
  refine ⟨p',by simp [PipeOp.exec,hstep],delivers_of_inv inv',?_⟩
  rintro i len got got' rfl hi hi' hshort
  obtain ⟨p₁,got₁,returned,hstep₁,-,hi₁,hclosed⟩ := roundOf_read inv hi
  obtain rfl : p₁ = p' := Except.ok.inj (hstep₁.symm.trans hstep)
  rw [hi₁,Option.some.injEq,Call.read.injEq] at hi'
  obtain ⟨-,rfl,rfl⟩ := hi'
  obtain ⟨hend,hempty⟩ := hclosed rfl hshort
  exact ⟨by rw [PipeRingBuffer.isWriteEndClosed,hend]; rfl,hempty⟩

/-- Two bytes of three are read while the third stays in the ring. -/
theorem pipe_delivers_two : ∃ p : PipeState,
    Runs PipeOp.exec (fun op _ _ => op.Given) () PipeState.made () p ∧
    p.removed = [(1, 10), (1, 20)] ∧ p.buffer.availableRead = 1 ∧ Delivers p := by
  have hrun : returnsWith ([PipeOp.startWrite [10,20,30],.startRead 2,.round 1,.round 0,
      .round 1].foldlM (fun _ op => PipeOp.exec op ()) ()) PipeState.made
      (fun _ p => p.removed = [(1, 10),(1, 20)] && p.buffer.availableRead = 1) = true := by
    decide +kernel
  obtain ⟨_,p,hp,htest⟩ := returnsWith_elim hrun
  have run : Runs PipeOp.exec (fun op _ _ => op.Given) () PipeState.made () p :=
    Runs.of_foldlM [PipeOp.startWrite [10,20,30],.startRead 2,.round 1,.round 0,.round 1]
      (by simp [PipeOp.Given]) .refl hp
  obtain ⟨hremoved,havail⟩ := Bool.and_eq_true_iff.mp htest
  exact ⟨p,run,of_decide_eq_true hremoved,of_decide_eq_true havail,(pipe_delivers run).1⟩

end DuckOs.PipeDelivery
