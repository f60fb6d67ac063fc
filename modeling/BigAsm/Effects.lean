import Mathlib
import BigAsm.Statement
import BigAsm.Library.OrderedMaps

/- What one statement can do, said once for every part of the state: the bytes and the label
   queue of each section, the symbol map, and the operations it schedules. -/
namespace BigAsm
open ByteStore Runs

namespace State

def bytes (s : State) (name : Str) : List Byte := (s.sectionAt name).output.bytes
def queue (s : State) (name : Str) : List Str := (s.sectionAt name).labelQueue

def scheduled (s : State) : List (Str × ScheduledOp) := OrderedMaps.flatten s.schedule

theorem sectionAt_putSection (s : State) {n : Str} (known : n ∈ s.sections) (sect : Section)
    (m : Str) : (s.putSection n sect).sectionAt m = if m = n then sect else s.sectionAt m := by
  simp only [sectionAt, putSection, Std.ExtTreeMap.getElem?_modify,
    Std.LawfulEqCmp.compare_eq_iff_eq]
  by_cases same : m = n
  · subst m
    obtain ⟨old, found⟩ := Option.isSome_iff_exists.mp
      (Std.ExtTreeMap.mem_iff_isSome_getElem?.mp known)
    simp [found]
  · simp [same, Ne.symm same]

theorem sectionAt_putCurrent (s : State) (sect : Section) (m : Str) :
    (s.putSection s.current sect).sectionAt m = if m = s.current then sect else s.sectionAt m :=
  s.sectionAt_putSection s.currentMem sect m

@[simp] theorem mem_putSection (s : State) (n m : Str) (sect : Section) :
    m ∈ (s.putSection n sect).sections ↔ m ∈ s.sections := Std.ExtTreeMap.mem_modify

theorem onSection_ok_iff {s t : State} {n : Str} {f : Section → Except Failure Section} :
    s.onSection n f = .ok t ↔ ∃ sect, f (s.sectionAt n) = .ok sect ∧ s.putSection n sect = t := by
  unfold onSection
  rw [bind_ok_iff]
  simp only [pure_ok_iff]

theorem sectionAt_setSection (s : State) (n m : Str) :
    ((s.setSection n).sectionAt m).output = (s.sectionAt m).output ∧
      ((s.setSection n).sectionAt m).labelQueue = (s.sectionAt m).labelQueue := by
  simp only [sectionAt, setSection, Std.ExtTreeMap.getElem?_insertIfNew,
    Std.LawfulEqCmp.compare_eq_iff_eq]
  by_cases new : n = m ∧ n ∉ s.sections
  · have missing : s.sections[m]? = none := by
      rw [← new.1]
      exact Std.ExtTreeMap.getElem?_eq_none new.2
    rw [if_pos new, missing]
    exact ⟨rfl, rfl⟩
  · rw [if_neg new]
    exact ⟨rfl, rfl⟩

def attach (labels : List Str) (loc : SymbolLocation) (m : StrMap SymbolLocation) :
    StrMap SymbolLocation := labels.foldl (fun m name => m.insertIfNew name loc) m

theorem getElem?_attach (labels : List Str) (loc : SymbolLocation) (m : StrMap SymbolLocation)
    (name : Str) :
    (attach labels loc m)[name]? = m[name]?.or (if name ∈ labels then some loc else none) := by
  induction labels generalizing m with
  | nil => simp [attach]
  | cons l labels ih =>
    have step : (attach (l :: labels) loc m)[name]? =
        (attach labels loc (m.insertIfNew l loc))[name]? := rfl
    rw [step, ih, Std.ExtTreeMap.getElem?_insertIfNew]
    by_cases same : l = name
    · subst l
      by_cases known : name ∈ m <;> simp [known]
    · simp [same, Ne.symm same]

theorem foldl_addSymbolHere (labels : List Str) (s : State) :
    labels.foldl addSymbolHere s =
      { s with lookup := attach labels s.currentLocation s.lookup } := by
  induction labels generalizing s with
  | nil => rfl
  | cons l labels ih => rw [List.foldl_cons, ih]; rfl

end State

def endOf (name : Str) (bs : List Byte) : SymbolLocation := ⟨name, bs.length, 0, 0⟩

def padTo (a : BitVec 64) (bs : List Byte) : List Byte :=
  if 1 < a.toNat then Buffer.resized (alignedSize bs.length a) bs else bs

namespace Section

theorem setOutput_ok_iff {s t : Section} {o : Option Buffer} :
    s.setOutput o = .ok t ↔ ∃ output, o = some output ∧ { s with output } = t := by
  cases o with
  | none => simp [setOutput]
  | some b => simp [setOutput]

@[simp] theorem mark_output (type : OutputType) (s : Section) : (s.mark type).output = s.output := by
  cases type <;> rfl

@[simp] theorem mark_labelQueue (type : OutputType) (s : Section) :
    (s.mark type).labelQueue = s.labelQueue := by
  cases type <;> rfl

theorem addOutput_ok {s t : Section} {type : OutputType} {data : List Byte}
    (run : s.addOutput type data = .ok t) :
    t.output.bytes = s.output.bytes ++ data ∧ t.labelQueue = s.labelQueue := by
  obtain ⟨m, grown, marked⟩ := bind_ok_iff.mp run
  obtain ⟨output, room, rfl⟩ := setOutput_ok_iff.mp grown
  rw [← pure_ok_iff.mp marked, mark_output, mark_labelQueue]
  exact ⟨Buffer.append_some_iff.mp room, rfl⟩

theorem allocate_ok {s t : Section} {len : BitVec 64} (run : s.allocate len = .ok t) :
    t.output.bytes =
        Buffer.resized (sizeT s.output.bytes.length + len).toNat s.output.bytes ∧
      t.labelQueue = s.labelQueue := by
  obtain ⟨m, grown, marked⟩ := bind_ok_iff.mp run
  obtain ⟨output, room, rfl⟩ := setOutput_ok_iff.mp grown
  rw [← pure_ok_iff.mp marked, mark_output, mark_labelQueue]
  exact ⟨Buffer.resize_some_iff.mp room, rfl⟩

theorem align_ok {s t : Section} {a : BitVec 64} (run : s.align a = .ok t) :
    t.output.bytes = Buffer.resized (alignedSize s.output.bytes.length a) s.output.bytes ∧
      t.labelQueue = s.labelQueue := by
  unfold align at run
  dsimp only at run
  split at run
  · obtain ⟨output, room, rfl⟩ := setOutput_ok_iff.mp run
    exact ⟨Buffer.resize_some_iff.mp room, rfl⟩
  · rename_i same
    cases run
    have same : s.output.bytes.length = alignedSize s.output.bytes.length a := not_not.mp same
    rw [← same, Buffer.resized_self]
    exact ⟨rfl, rfl⟩

end Section

structure Local (s t : State) (bs : List Byte) (waiting : List Str)
    (symbols : StrMap SymbolLocation) (schedule : StrMap (List ScheduledOp)) : Prop where
  options : t.options = s.options
  current : t.current = s.current
  known : ∀ n, n ∈ t.sections ↔ n ∈ s.sections
  bytes : ∀ n, t.bytes n = if n = s.current then bs else s.bytes n
  queue : ∀ n, t.queue n = if n = s.current then waiting else s.queue n
  lookup : t.lookup = symbols
  schedule : t.schedule = schedule

namespace Local
variable {s m t : State} {bs bs' : List Byte} {waiting waiting' : List Str}
  {symbols symbols' : StrMap SymbolLocation} {schedule schedule' : StrMap (List ScheduledOp)}

theorem trans (first : Local s m bs waiting symbols schedule)
    (second : Local m t bs' waiting' symbols' schedule') :
    Local s t bs' waiting' symbols' schedule' where
  options := second.options.trans first.options
  current := second.current.trans first.current
  known n := (second.known n).trans (first.known n)
  bytes n := by
    rw [second.bytes, first.bytes, first.current]
    split <;> rfl
  queue n := by
    rw [second.queue, first.queue, first.current]
    split <;> rfl
  lookup := second.lookup
  schedule := second.schedule

theorem currentBytes (h : Local s t bs waiting symbols schedule) : t.bytes t.current = bs := by
  rw [h.bytes, h.current, if_pos rfl]

theorem currentQueue (h : Local s t bs waiting symbols schedule) :
    t.queue t.current = waiting := by
  rw [h.queue, h.current, if_pos rfl]

end Local

namespace State

theorem putCurrent_local (s : State) (sect : Section) :
    Local s (s.putSection s.current sect) sect.output.bytes sect.labelQueue s.lookup
      s.schedule where
  options := rfl
  current := rfl
  known n := mem_putSection s s.current n sect
  bytes n := by
    rw [bytes, sectionAt_putCurrent]
    split <;> rfl
  queue n := by
    rw [queue, sectionAt_putCurrent]
    split <;> rfl
  lookup := rfl
  schedule := rfl

theorem putCurrent_same (s : State) {sect : Section}
    (output : sect.output = s.currentSection.output)
    (waiting : sect.labelQueue = s.currentSection.labelQueue) :
    Local s (s.putSection s.current sect) (s.bytes s.current) (s.queue s.current) s.lookup
      s.schedule := by
  have h := s.putCurrent_local sect
  rwa [output, waiting] at h

theorem same_local (s : State) : Local s s (s.bytes s.current) (s.queue s.current) s.lookup
    s.schedule where
  options := rfl
  current := rfl
  known _ := Iff.rfl
  bytes n := by split <;> simp_all
  queue n := by split <;> simp_all
  lookup := rfl
  schedule := rfl

variable {s t : State}

theorem addOutput_local {type : OutputType} {data : List Byte}
    (run : s.addOutput type data = .ok t) :
    Local s t (s.bytes s.current ++ data) (s.queue s.current) s.lookup s.schedule := by
  obtain ⟨sect, done, rfl⟩ := onSection_ok_iff.mp run
  obtain ⟨output, waiting⟩ := Section.addOutput_ok done
  have h := s.putCurrent_local sect
  rwa [output, waiting] at h

theorem allocate_local {len : BitVec 64} (run : s.allocate len = .ok t) :
    Local s t (Buffer.resized (sizeT (s.bytes s.current).length + len).toNat (s.bytes s.current))
      (s.queue s.current) s.lookup s.schedule := by
  obtain ⟨sect, done, rfl⟩ := onSection_ok_iff.mp run
  obtain ⟨output, waiting⟩ := Section.allocate_ok done
  have h := s.putCurrent_local sect
  rwa [output, waiting] at h

theorem align_local {a : BitVec 64} (run : s.align a = .ok t) :
    Local s t (Buffer.resized (alignedSize (s.bytes s.current).length a) (s.bytes s.current))
      (s.queue s.current) s.lookup s.schedule := by
  obtain ⟨sect, done, rfl⟩ := onSection_ok_iff.mp run
  obtain ⟨output, waiting⟩ := Section.align_ok done
  have h := s.putCurrent_local sect
  rwa [output, waiting] at h

theorem alignWithLabels_local {a : BitVec 64} (run : s.alignWithLabels a = .ok t) :
    Local s t (padTo a (s.bytes s.current)) []
      (attach (s.queue s.current) (endOf s.current (padTo a (s.bytes s.current))) s.lookup)
      s.schedule := by
  unfold alignWithLabels sectionAlignWithLabels at run
  obtain ⟨m, first, rest⟩ := bind_ok_iff.mp run
  have aligned : Local s m (padTo a (s.bytes s.current)) (s.queue s.current) s.lookup
      s.schedule := by
    unfold padTo
    unfold alignAbove at first
    split at first
    · rename_i large
      rw [if_pos large]
      exact align_local first
    · rename_i small
      rw [if_neg small]
      cases first
      exact s.same_local
  -- the labels are attached at the end of the aligned section, and then the queue is cleared
  have output : (m.sectionAt m.current).output.bytes = padTo a (s.bytes s.current) :=
    aligned.currentBytes
  have here : m.currentLocation = endOf s.current (padTo a (s.bytes s.current)) := by
    rw [← output, ← aligned.current]
    rfl
  have waiting : (m.sectionAt m.current).labelQueue = s.queue s.current := aligned.currentQueue
  rw [foldl_addSymbolHere, ← aligned.current, waiting, here, aligned.lookup] at rest
  rw [← pure_ok_iff.mp rest]
  refine aligned.trans ?_
  have cleared := putCurrent_local
    { m with
      lookup := attach (s.queue s.current) (endOf s.current (padTo a (s.bytes s.current)))
        s.lookup }
    { m.sectionAt m.current with labelQueue := [] }
  rw [output] at cleared
  exact ⟨cleared.options, cleared.current, cleared.known, cleared.bytes, cleared.queue,
    cleared.lookup, aligned.schedule⟩

theorem emitCode_local {words : List Instruction} (long : ∀ w ∈ words, w.isLong = true)
    (run : s.emitCode words = .ok t) :
    Local s t (s.bytes s.current ++ encodeWords words) (s.queue s.current) s.lookup
      s.schedule := by
  induction words generalizing s with
  | nil =>
    rw [← run_nil_iff.mp run, encodeWords, List.flatMap_nil, List.append_nil]
    exact s.same_local
  | cons w words ih =>
    obtain ⟨m, first, rest⟩ := run_cons_iff.mp run
    have four : (wordBytes w).take (Instruction.length w) = wordBytes w := by
      rw [length_of_isLong (long w (by simp))]
      exact List.take_of_length_le (by simp)
    rw [four] at first
    have head := addOutput_local first
    have tail := ih (fun v mem => long v (by simp [mem])) rest
    rw [head.currentBytes, head.currentQueue, head.lookup, head.schedule] at tail
    rw [encodeWords_cons, ← List.append_assoc]
    exact head.trans tail

theorem scheduleOp_local (s : State) (sym : Str) (op : ScheduledOp) :
    Local s (s.scheduleOp sym op) (s.bytes s.current) (s.queue s.current) s.lookup
      (OrderedMaps.push s.schedule sym op) where
  options := rfl
  current := rfl
  known _ := Iff.rfl
  bytes := s.same_local.bytes
  queue := s.same_local.queue
  lookup := rfl
  schedule := rfl

end State

namespace Statement

def padded (x : Statement) (bs : List Byte) : List Byte := padTo x.alignment bs

def output (x : Statement) (bs : List Byte) : List Byte :=
  match x with
  | .opcode code _ => x.padded bs ++ encodeWords code.words
  | .db value => bs ++ littleEndian 1 value
  | .data _ new => x.padded bs ++ new
  | .resb times => Buffer.resized (sizeT bs.length + times).toNat bs
  | .reserve scale times =>
    Buffer.resized (sizeT (x.padded bs).length + times * scale.bytes).toNat (x.padded bs)
  | .size _ => x.padded bs ++ wordBytes 0
  | .align a => Buffer.resized (alignedSize bs.length a) bs
  | _ => bs

def waiting (x : Statement) (labels : List Str) : List Str :=
  match x with
  | .label name => labels ++ [name]
  | .opcode .. | .data .. | .reserve .. | .size _ | .finishLabels => []
  | _ => labels

theorem waiting_eq (x : Statement) (labels : List Str) :
    x.waiting labels = if x.flushes then [] else labels ++ x.declares := by
  cases x <;> simp [waiting, flushes, declares]

/-- The operation a statement schedules, with the locations it captures. -/
def schedules (x : Statement) (current : Str) (bs : List Byte) : Option (Str × ScheduledOp) :=
  match x with
  | .opcode code _ => code.fixup.map fun (lbl, f) => (lbl, .fixup f (endOf current (x.padded bs)))
  | .endfunc sym => some (sym, .endfunc (endOf current bs))
  | .type sym t => some (sym, .type t)
  | .size sym => some (sym, .size (endOf current (x.padded bs)) (endOf current bs))
  | _ => none

def symbols (x : Statement) (s : State) : StrMap SymbolLocation :=
  if x.flushes then
    State.attach (s.queue s.current) (endOf s.current (x.padded (s.bytes s.current))) s.lookup
  else s.lookup

def schedule (x : Statement) (s : State) : StrMap (List ScheduledOp) :=
  match x.schedules s.current (s.bytes s.current) with
  | some (sym, op) => OrderedMaps.push s.schedule sym op
  | none => s.schedule

def currentAfter (x : Statement) (current : Str) : Str :=
  match x with
  | .sect name => name
  | _ => current

/-- What a statement does, whichever it is. -/
structure Effect (x : Statement) (s t : State) : Prop where
  options : t.options = s.options
  current : t.current = x.currentAfter s.current
  known : ∀ n, n ∈ s.sections → n ∈ t.sections
  bytes : ∀ n, t.bytes n = if n = s.current then x.output (s.bytes n) else s.bytes n
  queue : ∀ n, t.queue n = if n = s.current then x.waiting (s.queue n) else s.queue n
  lookup : t.lookup = x.symbols s
  schedule : t.schedule = x.schedule s

theorem Effect.of_local {x : Statement} {s t : State}
    (h : Local s t (x.output (s.bytes s.current)) (x.waiting (s.queue s.current)) (x.symbols s)
      (x.schedule s)) (stays : x.currentAfter s.current = s.current) : Effect x s t where
  options := h.options
  current := h.current.trans stays.symm
  known n := (h.known n).mpr
  bytes n := by
    rw [h.bytes]
    split <;> simp_all
  queue n := by
    rw [h.queue]
    split <;> simp_all
  lookup := h.lookup
  schedule := h.schedule

theorem padTo_small {a : BitVec 64} (small : ¬ 1 < a.toNat) (bs : List Byte) : padTo a bs = bs :=
  if_neg small

theorem scheduleFixup_local (code : Code) (s : State) :
    Local s (s.scheduleFixup code) (s.bytes s.current) (s.queue s.current) s.lookup
      (match code.fixup with
        | some (lbl, f) =>
          OrderedMaps.push s.schedule lbl (.fixup f (endOf s.current (s.bytes s.current)))
        | none => s.schedule) := by
  rcases code with ⟨words, _ | ⟨lbl, f⟩⟩
  · exact s.same_local
  · exact s.scheduleOp_local _ _

theorem emitData_local {s t : State} {a : BitVec 64} {data : List Byte}
    (run : s.emitData a data = .ok t) :
    Local s t (padTo a (s.bytes s.current) ++ data) []
      (State.attach (s.queue s.current) (endOf s.current (padTo a (s.bytes s.current))) s.lookup)
      s.schedule := by
  obtain ⟨m, aligned, written⟩ := bind_ok_iff.mp run
  have first := State.alignWithLabels_local aligned
  have second := State.addOutput_local written
  rw [first.currentBytes, first.currentQueue, first.lookup, first.schedule] at second
  exact first.trans second

theorem reserve_local {s t : State} {element times : BitVec 64}
    (run : s.reserve element times = .ok t) :
    Local s t (Buffer.resized (sizeT (padTo element (s.bytes s.current)).length +
        times * element).toNat (padTo element (s.bytes s.current))) []
      (State.attach (s.queue s.current) (endOf s.current (padTo element (s.bytes s.current)))
        s.lookup) s.schedule := by
  obtain ⟨m, aligned, resized⟩ := bind_ok_iff.mp run
  have first := State.alignWithLabels_local aligned
  have second := State.allocate_local resized
  rw [first.currentBytes, first.currentQueue, first.lookup, first.schedule] at second
  exact first.trans second

theorem emitSize_local {s t : State} {sym : Str} (run : s.emitSize sym = .ok t) :
    Local s t (padTo 4 (s.bytes s.current) ++ wordBytes 0) []
      (State.attach (s.queue s.current) (endOf s.current (padTo 4 (s.bytes s.current))) s.lookup)
      (OrderedMaps.push s.schedule sym (.size (endOf s.current (padTo 4 (s.bytes s.current)))
        (endOf s.current (s.bytes s.current)))) := by
  obtain ⟨m, aligned, written⟩ := bind_ok_iff.mp run
  have first := State.alignWithLabels_local aligned
  have pushed := m.scheduleOp_local sym (.size m.currentLocation s.currentLocation)
  have second := State.addOutput_local written
  have here : m.currentLocation = endOf s.current (padTo 4 (s.bytes s.current)) := by
    rw [← first.currentBytes, ← first.current]
    rfl
  rw [here] at pushed second
  rw [first.currentBytes, first.currentQueue, first.lookup, first.schedule] at pushed
  rw [pushed.currentBytes, pushed.currentQueue, pushed.lookup, pushed.schedule] at second
  exact (first.trans pushed).trans second

theorem opcode_local {s m t : State} {code : Code} (wf : code.WellFormed)
    (aligned : s.alignWithLabels 4 = .ok m)
    (written : (m.scheduleFixup code).emitCode code.words = .ok t) :
    Local s t (padTo 4 (s.bytes s.current) ++ encodeWords code.words) []
      (State.attach (s.queue s.current) (endOf s.current (padTo 4 (s.bytes s.current))) s.lookup)
      (match code.fixup with
        | some (lbl, f) =>
          OrderedMaps.push s.schedule lbl (.fixup f (endOf s.current (padTo 4 (s.bytes s.current))))
        | none => s.schedule) := by
  have first := State.alignWithLabels_local aligned
  have pushed := scheduleFixup_local code m
  rw [first.currentBytes, first.currentQueue, first.lookup, first.schedule, first.current] at pushed
  have second := State.emitCode_local wf.long written
  rw [pushed.currentBytes, pushed.currentQueue, pushed.lookup, pushed.schedule] at second
  exact (first.trans pushed).trans second

theorem exec_effect {x : Statement} {s t : State} (run : x.exec s = .ok t) : Effect x s t := by
  cases x with
  | label name =>
    cases run
    exact .of_local (s.putCurrent_local _) rfl
  | opcode code wf =>
    obtain ⟨m, aligned, rest⟩ := bind_ok_iff.mp run
    have h := opcode_local wf aligned rest
    rcases code with ⟨words, _ | ⟨lbl, f⟩⟩
    · exact .of_local h rfl
    · exact .of_local h rfl
  | db value =>
    exact .of_local (State.addOutput_local run) rfl
  | data scale bytes => exact .of_local (emitData_local run) rfl
  | resb times => exact .of_local (State.allocate_local run) rfl
  | reserve scale times => exact .of_local (reserve_local run) rfl
  | size sym => exact .of_local (emitSize_local run) rfl
  | align a => exact .of_local (State.align_local run) rfl
  | finishLabels =>
    have h := State.alignWithLabels_local run
    rw [padTo_small (by decide)] at h
    exact .of_local h rfl
  | endfunc sym =>
    cases run
    exact .of_local (s.scheduleOp_local _ _) rfl
  | type sym t =>
    cases run
    exact .of_local (s.scheduleOp_local _ _) rfl
  | global sym =>
    cases run
    have same := s.same_local
    exact .of_local ⟨rfl, rfl, fun _ => Iff.rfl, same.bytes, same.queue, rfl, rfl⟩ rfl
  | sect name =>
    cases run
    refine ⟨rfl, rfl, fun n known => ?_, fun n => ?_, fun n => ?_, rfl, rfl⟩
    · exact Std.ExtTreeMap.mem_insertIfNew.mpr (Or.inr known)
    · rw [State.bytes, (s.sectionAt_setSection name n).1]
      exact (ite_self (s.bytes n)).symm
    · rw [State.queue, (s.sectionAt_setSection name n).2]
      exact (ite_self (s.queue n)).symm
  | org base =>
    change s.org base = .ok t at run
    unfold State.org at run
    split at run
    · cases run
    · cases run
      exact .of_local (s.putCurrent_same rfl rfl) rfl
  | execonly =>
    cases run
    exact .of_local (s.putCurrent_same rfl rfl) rfl
  | readonly =>
    cases run
    exact .of_local (s.putCurrent_same rfl rfl) rfl

theorem Effect.scheduled_perm {x : Statement} {s t : State} (h : Effect x s t) :
    t.scheduled.Perm (s.scheduled ++ (x.schedules s.current (s.bytes s.current)).toList) := by
  unfold State.scheduled
  rw [h.schedule]
  unfold Statement.schedule
  cases x.schedules s.current (s.bytes s.current) with
  | none => simp
  | some entry => exact OrderedMaps.flatten_push_perm s.schedule entry.1 entry.2

theorem Effect.mem_scheduled {x : Statement} {s t : State} (h : Effect x s t)
    (entry : Str × ScheduledOp) : entry ∈ t.scheduled ↔
      entry ∈ s.scheduled ∨ x.schedules s.current (s.bytes s.current) = some entry := by
  rw [h.scheduled_perm.mem_iff, List.mem_append, Option.mem_toList]

theorem Effect.lookup_cases {x : Statement} {s t : State} (h : Effect x s t) {name : Str}
    {loc : SymbolLocation} (found : t.lookup[name]? = some loc) :
    s.lookup[name]? = some loc ∨
      s.lookup[name]? = none ∧ x.flushes = true ∧ name ∈ s.queue s.current ∧
        loc = endOf s.current (x.padded (s.bytes s.current)) := by
  rw [h.lookup, Statement.symbols] at found
  split at found
  · rename_i flushes
    rw [State.getElem?_attach] at found
    cases before : s.lookup[name]? with
    | some old =>
      rw [before, Option.some_or] at found
      exact Or.inl found
    | none =>
      rw [before, Option.none_or] at found
      split at found
      · rename_i waiting
        exact Or.inr ⟨rfl, flushes, waiting, (Option.some.inj found).symm⟩
      · cases found
  · exact Or.inl found

theorem Effect.lookup_kept {x : Statement} {s t : State} (h : Effect x s t) {name : Str}
    {loc : SymbolLocation} (found : s.lookup[name]? = some loc) : t.lookup[name]? = some loc := by
  rw [h.lookup, Statement.symbols]
  split
  · rw [State.getElem?_attach, found, Option.some_or]
  · exact found

end Statement

end BigAsm
