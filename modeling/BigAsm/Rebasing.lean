import Mathlib
import BigAsm.Loading

/- Programs at another base address. Without an .org nothing but the base of .text goes into the
   layout, so a distance of whole pages moves every section by itself, and the output stays the
   same when every label is referred to by its distance. -/
namespace BigAsm
open ByteStore Runs Instruction

namespace Section
variable (d : BitVec 128)

def rebase (s : Section) : Section :=
  { s with baseAddress := if s.hasBaseAddr then s.baseAddress + d else s.baseAddress }

theorem setOutput_rebase (s : Section) (o : Option Buffer) :
    (s.rebase d).setOutput o = rebase d <$> s.setOutput o := by
  cases o <;> rfl

theorem mark_rebase (s : Section) (type : OutputType) :
    (s.rebase d).mark type = (s.mark type).rebase d := by
  cases type <;> rfl

theorem addOutput_rebase (s : Section) (type : OutputType) (data : List Byte) :
    (s.rebase d).addOutput type data = rebase d <$> s.addOutput type data :=
  bind_commutes (setOutput_rebase d s _) fun t => congrArg Except.ok (mark_rebase d t type)

theorem allocate_rebase (s : Section) (len : BitVec 64) :
    (s.rebase d).allocate len = rebase d <$> s.allocate len :=
  bind_commutes (setOutput_rebase d s _) fun t => congrArg Except.ok (mark_rebase d t .resv)

theorem align_rebase (s : Section) (a : BitVec 64) :
    (s.rebase d).align a = rebase d <$> s.align a := by
  change (if s.size ≠ alignedSize s.size a then _ else _) = _
  unfold align
  dsimp only
  split
  · exact setOutput_rebase d s _
  · rfl

theorem alignWithLabels_rebase (s : Section) (a : BitVec 64) :
    (s.rebase d).alignWithLabels a = rebase d <$> s.alignWithLabels a := by
  have above : (s.rebase d).alignAbove a = rebase d <$> s.alignAbove a := by
    unfold alignAbove
    split
    · exact align_rebase d s a
    · rfl
  exact bind_commutes above fun t => rfl

theorem emitCode_rebase (s : Section) (words : List Instruction) :
    (s.rebase d).emitCode words = rebase d <$> s.emitCode words :=
  run_commutes (rebase d) (fun _ _ s => addOutput_rebase d s _ _) s

theorem act_rebase {x : Statement} (free : x.setsBase = false) (s : Section) :
    x.act (s.rebase d) = rebase d <$> x.act s := by
  cases x with
  | opcode code wf =>
    exact bind_commutes (alignWithLabels_rebase d s 4) fun t => emitCode_rebase d t code.words
  | db value => exact addOutput_rebase d s .data _
  | data scale bytes =>
    exact bind_commutes (alignWithLabels_rebase d s scale.bytes) fun t => addOutput_rebase d t .data _
  | resb times => exact allocate_rebase d s times
  | reserve scale times =>
    exact bind_commutes (alignWithLabels_rebase d s scale.bytes) fun t => allocate_rebase d t _
  | size sym => exact bind_commutes (alignWithLabels_rebase d s 4) fun t => addOutput_rebase d t .data _
  | align a => exact align_rebase d s a
  | finishLabels => exact alignWithLabels_rebase d s 0
  | org base => cases free
  | execonly | readonly | label name | endfunc sym | type sym type | global sym | sect name => rfl

end Section

def State.rebase (d : BitVec 128) (s : State) : State :=
  { s with
    options := { s.options with base := s.options.base + d }
    sections := s.sections.map fun _ sect => sect.rebase d
    currentMem := Std.ExtTreeMap.mem_map.mpr s.currentMem }

namespace State
variable (d : BitVec 128)

theorem getElem?_rebase (s : State) (n : Str) :
    (s.rebase d).sections[n]? = (s.sections[n]?).map (Section.rebase d) :=
  Std.ExtTreeMap.getElem?_map

theorem sectionAt_rebase (s : State) (n : Str) :
    (s.rebase d).sectionAt n = (s.sectionAt n).rebase d := by
  unfold sectionAt
  rw [getElem?_rebase]
  cases s.sections[n]? <;> rfl

theorem mem_rebase (s : State) (n : Str) : n ∈ (s.rebase d).sections ↔ n ∈ s.sections :=
  Std.ExtTreeMap.mem_map

theorem putSection_rebase (s : State) (n : Str) (sect : Section) :
    (s.rebase d).putSection n (sect.rebase d) = (s.putSection n sect).rebase d := by
  refine State.ext rfl ?_ rfl rfl rfl rfl
  apply Std.ExtTreeMap.ext_getElem?
  intro m
  change ((s.rebase d).sections.modify n _)[m]? = _
  rw [getElem?_rebase, Std.ExtTreeMap.getElem?_modify, getElem?_rebase]
  change _ = ((s.sections.modify n _)[m]?).map _
  rw [Std.ExtTreeMap.getElem?_modify]
  split
  · cases s.sections[n]? <;> rfl
  · exact getElem?_rebase d s m

theorem setSection_rebase (s : State) (n : Str) :
    (s.rebase d).setSection n = (s.setSection n).rebase d := by
  refine State.ext rfl ?_ rfl rfl rfl rfl
  apply Std.ExtTreeMap.ext_getElem?
  intro m
  have size : (s.rebase d).sections.size = s.sections.size := Std.ExtTreeMap.size_map
  rw [getElem?_rebase]
  change ((s.rebase d).sections.insertIfNew n { name := n, idx := (s.rebase d).sections.size })[m]? =
    ((s.sections.insertIfNew n _)[m]?).map _
  simp only [Std.ExtTreeMap.getElem?_insertIfNew, size, getElem?_rebase, mem_rebase]
  split <;> rfl

theorem currentSection_rebase (s : State) :
    (s.rebase d).currentSection = s.currentSection.rebase d := sectionAt_rebase d s s.current

theorem bytes_rebase (s : State) (n : Str) : (s.rebase d).bytes n = s.bytes n := by
  rw [bytes, sectionAt_rebase]
  rfl

theorem queue_rebase (s : State) (n : Str) : (s.rebase d).queue n = s.queue n := by
  rw [queue, sectionAt_rebase]
  rfl

theorem commit_rebase (x : Statement) (s : State) (sect : Section) :
    x.commit (s.rebase d) (sect.rebase d) = (x.commit s sect).rebase d := by
  refine State.ext rfl ?_ rfl ?_ ?_ ?_
  · have same := congrArg State.sections (putSection_rebase d s s.current sect)
    exact same
  · change x.symbols (s.rebase d) = x.symbols s
    unfold Statement.symbols
    rw [queue_rebase, bytes_rebase]
    rfl
  · change x.schedule (s.rebase d) = x.schedule s
    unfold Statement.schedule
    rw [bytes_rebase]
    rfl
  · cases x <;> rfl

theorem exec_rebase {x : Statement} (free : x.setsBase = false) (s : State) :
    x.exec (s.rebase d) = rebase d <$> x.exec s := by
  by_cases stays : ∀ name, x ≠ .sect name
  · rw [Statement.exec_eq _ stays, Statement.exec_eq _ stays, currentSection_rebase,
      Section.act_rebase d free]
    cases x.act s.currentSection with
    | error e => rfl
    | ok sect => exact congrArg Except.ok (commit_rebase d x s sect)
  · push Not at stays
    obtain ⟨name, rfl⟩ := stays
    exact congrArg Except.ok (setSection_rebase d s name)

theorem new_rebase (options : Options) :
    new { options with base := options.base + d } = (new options).rebase d := by
  refine State.ext rfl ?_ rfl rfl rfl rfl
  apply Std.ExtTreeMap.ext_getElem?
  intro n
  rw [getElem?_rebase]
  unfold new
  simp only [putSection, currentSection, sectionAt, Std.ExtTreeMap.getElem?_modify,
    Std.ExtTreeMap.getElem?_insertIfNew]
  split
  · simp [Section.rebase, Section.setBaseAddress]
  · simp_all

end State

theorem execAll_rebase (d : BitVec 128) {xs : List Statement} (free : ∀ x ∈ xs, x.setsBase = false)
    (s : State) : execAll (s.rebase d) xs = State.rebase d <$> execAll s xs :=
  run_commutes (State.rebase d) (fun x mem s => State.exec_rebase d (free x mem) s) s

theorem clear_low_add {k : Nat} {x d mask : BitVec 128} (mask_eq : mask.toNat = 2 ^ k - 1)
    (whole : 2 ^ k ∣ d.toNat) (small : k ≤ 128) : (x + d) &&& ~~~mask = (x &&& ~~~mask) + d := by
  apply BitVec.eq_of_toNat_eq
  obtain ⟨q, hq⟩ := whole
  have power : 2 ^ 128 = 2 ^ k * 2 ^ (128 - k) := by
    rw [← Nat.pow_add, Nat.add_sub_cancel' small]
  have positive : 0 < 2 ^ k := Nat.two_pow_pos k
  rw [BitFields.toNat_clear_low _ _ mask_eq, BitVec.toNat_add, BitVec.toNat_add,
    BitFields.toNat_clear_low _ _ mask_eq, hq, power, Nat.mod_mul_right_div_self,
    Nat.add_mul_div_left _ _ positive, Nat.mul_comm (2 ^ k) q, ← Nat.add_mul,
    Nat.mul_comm (2 ^ k) (2 ^ (128 - k)), Nat.mul_mod_mul_right]

namespace State.Layout
variable {d : BitVec 128}

theorem separate_rebase (page : 4096 ∣ d.toNat) (l : Layout) (separation : Bool) (sect : Section) :
    ({ l with base := l.base + d } : Layout).separate separation (sect.rebase d) =
      { l.separate separation sect with base := (l.separate separation sect).base + d } := by
  have realign : pageRealign (l.base + d) = pageRealign l.base + d := by
    have mask : (0xFFF : BitVec 128).toNat = 2 ^ 12 - 1 := rfl
    have swap : l.base + d + 0xFFF = l.base + 0xFFF + d := by ring
    rw [pageRealign, swap, clear_low_add mask page (by decide)]
    rfl
  unfold separate
  change (if separation then if l.wasExecutable && !sect.code then _ else if
    l.wasReadonly && !sect.readonly then _ else _ else _) = _
  split
  · split
    · simp [realign]
    · split
      · simp [realign]
      · rfl
  · rfl

theorem enter_rebase (page : 4096 ∣ d.toNat) (l : Layout) (separation : Bool) (sect : Section) :
    ({ l with base := l.base + d } : Layout).enter separation (sect.rebase d) =
      { l.enter separation sect with base := (l.enter separation sect).base + d } := by
  unfold enter
  cases explicit : sect.hasBaseAddr with
  | true => simp [Section.rebase, explicit]
  | false =>
    have free : sect.rebase d = sect := by
      rw [Section.rebase, if_neg (by simp [explicit])]
    have moved := separate_rebase page l separation sect
    rw [free] at moved ⊢
    rw [explicit]
    exact moved

theorem leave_rebase (page : 4096 ∣ d.toNat) (l : Layout) (sect : Section) :
    ({ l with base := l.base + d } : Layout).leave (sect.rebase d) =
      { l.leave sect with base := (l.leave sect).base + d } := by
  have mask : (0xF : BitVec 128).toNat = 2 ^ 4 - 1 := rfl
  have whole : 2 ^ 4 ∣ d.toNat := Nat.dvd_trans (by decide) page
  have swap : l.base + d + BitVec.ofNat 128 sect.size + 0xF =
      l.base + BitVec.ofNat 128 sect.size + 0xF + d := by ring
  have moved := @clear_low_add 4 (l.base + BitVec.ofNat 128 sect.size + 0xF) d _ mask whole (by decide)
  rw [← swap] at moved
  exact congrArg (fun base => { l with base }) moved

theorem bases_rebase (page : 4096 ∣ d.toNat) (l : Layout) (separation : Bool)
    (sects : List Section) :
    ({ l with base := l.base + d } : Layout).bases separation (sects.map (Section.rebase d)) =
      (l.bases separation sects).map (· + d) := by
  induction sects generalizing l with
  | nil => rfl
  | cons sect rest ih =>
    rw [List.map_cons, bases, bases, enter_rebase page, leave_rebase page, ih]
    rfl

end State.Layout

namespace State
variable {d : BitVec 128} {s u t : State}

theorem Indexed.rebase {order : List Str} (indexed : s.Indexed order) :
    (s.rebase d).Indexed order := by
  refine indexed.of_same Std.ExtTreeMap.size_map (mem_rebase d s) fun n _ => ?_
  rw [sectionAt_rebase]
  rfl

theorem prepare_rebase (page : 4096 ∣ d.toNat) {order : List Str} (indexed : s.Indexed order)
    (run : s.prepare = .ok u) (run' : (s.rebase d).prepare = .ok t) {n : Str}
    (known : n ∈ s.sections) : t.baseOf n = u.baseOf n + d := by
  obtain ⟨m, u', flushed, prepared, placed⟩ := prepare_ok indexed
  cases prepared.symm.trans run
  obtain ⟨m', t', flushed', prepared', placed'⟩ := prepare_ok (indexed.rebase (d := d))
  cases prepared'.symm.trans run'
  have here := (prepared_base flushed placed (indexed.index known)).1
  have at_ : order[((s.rebase d).sectionAt n).idx]? = some n := by
    rw [sectionAt_rebase]
    exact indexed.index known
  have there := (prepared_base flushed' placed' at_).1
  have sects : order.map (s.rebase d).sectionAt = (order.map s.sectionAt).map (Section.rebase d) := by
    rw [List.map_map]
    exact List.map_congr_left fun m _ => sectionAt_rebase d s m
  have moved := Layout.bases_rebase page { base := s.options.base }
    s.options.sectionAttrPageSeparation (order.map s.sectionAt)
  rw [← sects] at moved
  have idx : ((s.rebase d).sectionAt n).idx = (s.sectionAt n).idx := by
    rw [sectionAt_rebase]
    rfl
  change (({ base := s.options.base + d } : Layout).bases s.options.sectionAttrPageSeparation
    (order.map (s.rebase d).sectionAt))[_]? = _ at there
  rw [moved, idx, List.getElem?_map, here] at there
  exact (Option.some.inj there).symm

end State

section Programs
variable {env : Env} {options : Options} {d : BitVec 128}

def Assembler.rebase (d : BitVec 128) (a : Assembler) : Assembler :=
  { a with state := a.state.rebase d }

theorem base_aligned {base : BitVec 128} (page : 4096 ∣ d.toNat) (aligned : base &&& 0xF = 0) :
    (base + d) &&& 0xF = 0 := by
  have low : ∀ x : BitVec 128, x &&& 0xF = 0 ↔ x.toNat % 16 = 0 := by
    intro x
    rw [← BitVec.toNat_inj, BitVec.toNat_and]
    exact Iff.of_eq (congrArg (· = 0) (Nat.and_two_pow_sub_one_eq_mod x.toNat 4))
  rw [low, BitVec.toNat_add]
  have := (low base).mp aligned
  omega

theorem assembleFiles_rebase (page : 4096 ∣ d.toNat) {depth : Nat}
    {files : List (List Token × Option Str)} {ys : List Statement}
    (listed : expandFiles env depth files = .ok ys) (free : ∀ x ∈ ys, x.setsBase = false)
    {a b : Assembler} (run : assembleFiles env depth files a = .ok ((), b)) :
    assembleFiles env depth files (a.rebase d) = .ok ((), b.rebase d) := by
  induction files generalizing a ys with
  | nil =>
    obtain ⟨-, rfl⟩ := stateT_pure_ok_iff.mp run
    rfl
  | cons file files ih =>
    obtain ⟨_, m, first, rest⟩ := stateT_bind_ok_iff.mp run
    have aligned := assemble_aligned first
    obtain ⟨xs, t, here, ran, rfl⟩ := (assemble_expands env depth _ _ _ _ aligned).mp first
    obtain ⟨xs', here', more⟩ := bind_ok_iff.mp listed
    obtain ⟨later, there, done⟩ := bind_ok_iff.mp more
    cases here.symm.trans here'
    cases done
    have moved := execAll_rebase d (fun x mem => free x (List.mem_append_left _ mem)) a.state
    rw [ran] at moved
    refine stateT_bind_ok_iff.mpr ⟨(), _, (assemble_expands env depth _ _ _ _
      (base_aligned page aligned)).mpr ⟨xs, _, here, moved, rfl⟩, ?_⟩
    exact ih there (fun x mem => free x (List.mem_append_right _ mem)) rest

def Program.rebase (p : Program env options) (floating : p.Floating) (page : 4096 ∣ d.toNat) :
    Program env { options with base := options.base + d } where
  depth := p.depth
  files := p.files
  final := p.final.rebase d
  accepted := by
    obtain ⟨xs, listed, -⟩ := assembleFiles_expand p.accepted
    have free := floating
    unfold Program.Floating Program.statements at free
    rw [listed] at free
    have moved := assembleFiles_rebase page listed free p.accepted
    rwa [Assembler.rebase, Assembler.new, ← State.new_rebase] at moved

theorem Program.rebase_grows {p : Program env options} (grows : p.Grows) (floating : p.Floating)
    (page : 4096 ∣ d.toNat) : (p.rebase floating page).Grows := by
  intro pre x post t processed
  have ran := p.ran
  have split : p.statements = pre ++ x :: post := processed.split
  rw [split] at ran
  obtain ⟨s, before, -⟩ := run_append_iff.mp ran
  have moved := @execAll_rebase d pre (fun y mem => floating y (by rw [split]; simp [mem]))
    (State.new options)
  have start : execAll (State.new options) pre = .ok s := before
  rw [start, ← State.new_rebase] at moved
  cases moved.symm.trans processed.before
  have grown := grows pre x post s ⟨split, before⟩
  change x.Grows ((s.rebase d).bytes s.current)
  rwa [State.bytes_rebase]

end Programs

/-- What an instruction refers to by its distance, wherever both stand. -/
def Fixup.Relative (here target : BitVec 128) : Fixup → Prop
  | .branch | .jump => True
  | .la => isRelativelyClose ((target - here).setWidth 64) = true
  | .laq | .farcall => False

def Statement.Relative (m : LinkMap) (v : Survey) : Statement → Prop
  | x@(.opcode code _) => ∀ lbl f, code.fixup = some (lbl, f) →
    f.Relative (m.address v.current (x.start (v.size v.current))) ((m.target lbl).getD 0)
  | _ => True

/-- The addresses of a program are those of the other map, moved by d. -/
structure LinkMap.Moved (d : BitVec 128) (xs : List Statement) (m m' : LinkMap) : Prop where
  target : ∀ lbl, m'.target lbl = (m.target lbl).map (· + d)
  address : ∀ pre x post, xs = pre ++ x :: post → ∀ offset,
    m'.address (firstPass pre).current offset = m.address (firstPass pre).current offset + d

theorem Fixup.encode_moved {f : Fixup} {here target d : BitVec 128}
    (relative : f.Relative here target) (ws : List Instruction) :
    f.encode (here + d) (target + d) ws = f.encode here target ws := by
  have distance : target + d - (here + d) = target - here := by ring
  cases f with
  | branch | jump =>
    simp only [Fixup.encode, distance]
  | la =>
    have same : patchLa ((target - here).setWidth 64) (target + d) =
        patchLa ((target - here).setWidth 64) target := by
      funext i1 i2
      have close : isRelativelyClose ((target - here).setWidth 64) = true := relative
      simp only [patchLa, close, if_true]
    simp only [Fixup.encode, distance, same]
  | laq | farcall => cases relative

theorem lt_moved_iff {a b d : BitVec 128} (room : a.toNat + d.toNat < 2 ^ 128)
    (room' : b.toNat + d.toNat < 2 ^ 128) : a + d < b + d ↔ a < b := by
  rw [BitVec.lt_def, BitVec.lt_def, BitVec.toNat_add, BitVec.toNat_add, Nat.mod_eq_of_lt room,
    Nat.mod_eq_of_lt room']
  omega

theorem sizeWord_moved {sym dataloc loc d : BitVec 128} (room : sym.toNat + d.toNat < 2 ^ 128)
    (room' : dataloc.toNat + d.toNat < 2 ^ 128) :
    sizeWord (sym + d) (dataloc + d) (loc + d) = sizeWord sym dataloc loc := by
  have order := lt_moved_iff room room'
  have back : dataloc + d - (sym + d) = dataloc - sym := by ring
  have forth : sym + d - 4 - (loc + d) = sym - 4 - loc := by ring
  unfold sizeWord
  by_cases below : sym < dataloc
  · rw [if_pos (order.mpr below), if_pos below, back]
  · rw [if_neg (mt order.mp below), if_neg below, forth]

theorem Image.next_congr {m m' : LinkMap} {i : Image} {x : Statement}
    (same : x.content m' i.current (i.bytes i.current).length =
      x.content m i.current (i.bytes i.current).length) : i.next m' x = i.next m x := by
  rw [Image.next, Image.next, Statement.write, Statement.write, same]

theorem secondPass_congr {m m' : LinkMap} (xs : List Statement)
    (same : ∀ pre x post, xs = pre ++ x :: post →
      x.content m' (firstPass pre).current ((firstPass pre).size (firstPass pre).current) =
        x.content m (firstPass pre).current ((firstPass pre).size (firstPass pre).current)) :
    xs.foldl (Image.next m') Image.start = xs.foldl (Image.next m) Image.start := by
  induction xs using List.reverseRecOn with
  | nil => rw [List.foldl_nil, List.foldl_nil]
  | append_singleton xs x ih =>
    have before := ih fun pre y post split => same pre y (post ++ [x]) (by simp [split])
    obtain ⟨current, sizes⟩ := passes_agree m xs
    have here := same xs x [] rfl
    rw [← current, ← sizes] at here
    rw [List.foldl_append, List.foldl_append, before]
    exact Image.next_congr here

namespace State
variable {s t : State}

def Located (s : State) : Prop := ∀ (name : Str) (loc : SymbolLocation),
  s.lookup[name]? = some loc → loc.sect ∈ s.sections

theorem exec_located {x : Statement} (located : s.Located) (run : x.exec s = .ok t) : t.Located := by
  have effect := Statement.exec_effect run
  intro name loc found
  rcases effect.lookup_cases found with old | ⟨-, -, -, rfl⟩
  · exact effect.known loc.sect (located name loc old)
  · exact effect.known s.current s.currentMem

end State

namespace Finished
variable {env : Env} {options : Options} (f : Finished env options)

theorem frame (grows : f.program.Grows) : ∃ u, f.program.final.state.prepare = .ok u ∧
    SameFrame u f.state ∧ ∀ n, n ∈ f.state.sections ↔ n ∈ f.program.final.state.sections := by
  obtain ⟨u, run, -, -, known⟩ := f.program.prepared
  obtain ⟨recorded, -, worked⟩ := grows.prepared run
  obtain ⟨u', run', finished⟩ := bind_ok_iff.mp f.done
  cases run.symm.trans run'
  rw [worked] at finished
  rcases State.runScheduled_all recorded.owned with ⟨es, t, -, done, frame, -⟩ | ⟨_, _, -, -, failed⟩
  · cases finished.symm.trans done
    exact ⟨u, run, frame, fun n => (frame.known n).trans (known n)⟩
  · cases finished.symm.trans failed

theorem located {name : Str} {sym : SymbolLocation} (found : f.state.lookup[name]? = some sym) :
    sym.sect ∈ f.program.final.state.sections := by
  have start : (State.new options).Located := by
    intro name loc found
    cases (Std.ExtTreeMap.getElem?_empty (a := name)).symm.trans found
  have all := run_invariant State.Located (fun _ _ _ => State.exec_located) start f.program.ran
  have place := f.place name
  rw [found, Option.map_some] at place
  obtain ⟨old, there, same⟩ := Option.map_eq_some_iff.mp place.symm
  have sect : old.sect = sym.sect := congrArg Prod.fst same
  rw [← sect]
  cases known : f.program.final.state.lookup[name]? with
  | some loc =>
    rw [known, Option.some_or] at there
    cases there
    exact all name old known
  | none =>
    rw [known, Option.none_or] at there
    split at there
    · cases there
      exact f.program.final.state.currentMem
    · cases there

end Finished

section Programs
variable {env : Env} {options : Options} {d : BitVec 128}

theorem Program.rebase_bases {p : Program env options} (floating : p.Floating)
    (page : 4096 ∣ d.toNat) {u u' : State} (run : p.final.state.prepare = .ok u)
    (run' : (p.rebase floating page).final.state.prepare = .ok u') {n : Str}
    (known : n ∈ p.final.state.sections) : u'.baseOf n = u.baseOf n + d := by
  obtain ⟨first, order, indexed, -⟩ := (State.Reachable.ofProgram p).anchored
  exact State.prepare_rebase page indexed run run' known

theorem Program.Grows.current_known {p : Program env options} (grows : p.Grows)
    {pre post : List Statement} {x : Statement} (split : p.statements = pre ++ x :: post) :
    (firstPass pre).current ∈ p.final.state.sections := by
  have ran := p.ran
  rw [split] at ran
  obtain ⟨v, before, rest⟩ := run_append_iff.mp ran
  rw [(Surveys.run (grows.upto split before).1 before).current]
  exact run_relation (fun s t : State => ∀ n, n ∈ s.sections → n ∈ t.sections) (fun _ _ known => known)
    (fun _ _ _ first second n known => second n (first n known))
    (fun _ _ _ step => (Statement.exec_effect step).known) rest v.current v.currentMem

theorem Finished.moved (f : Finished env options) (grows : f.program.Grows)
    (floating : f.program.Floating) (page : 4096 ∣ d.toNat) {u' : State}
    (run' : (f.program.rebase floating page).final.state.prepare = .ok u') :
    LinkMap.Moved d f.program.statements f.map
      ⟨u'.baseOf, (firstPass f.program.statements).places⟩ := by
  obtain ⟨u, run, frame, -⟩ := f.frame grows
  have base : ∀ n ∈ f.program.final.state.sections, u'.baseOf n = f.state.baseOf n + d := by
    intro n known
    rw [Program.rebase_bases floating page run run' known]
    exact congrArg (· + d) (frame.base n).symm
  have place : ∀ name, (f.state.lookup[name]?).map SymbolLocation.place =
    (firstPass f.program.statements).places name := f.surveyed grows
  constructor
  · intro lbl
    change ((firstPass f.program.statements).places lbl).map _ =
      (((firstPass f.program.statements).places lbl).map _).map _
    rw [← place]
    cases found : f.state.lookup[lbl]? with
    | none => rfl
    | some sym =>
      have moved := base sym.sect (f.located found)
      refine congrArg some ?_
      change u'.baseOf sym.sect + _ = f.state.baseOf sym.sect + _ + d
      rw [moved]
      ring
  · intro pre x post split offset
    change u'.baseOf _ + _ = f.state.baseOf _ + _ + d
    rw [base _ (grows.current_known split)]
    ring

theorem Statement.content_moved {m m' : LinkMap} {v : Survey} {x : Statement}
    (address : ∀ offset, m'.address v.current offset = m.address v.current offset + d)
    (target : ∀ lbl, m'.target lbl = (m.target lbl).map (· + d))
    (known : ∀ lbl, x.refersTo = some lbl → ∃ target, m.target lbl = some target ∧
      target.toNat + d.toNat < 2 ^ 128)
    (room : (m.address v.current (v.size v.current)).toNat + d.toNat < 2 ^ 128)
    (relative : x.Relative m v) :
    x.content m' v.current (v.size v.current) = x.content m v.current (v.size v.current) := by
  cases x with
  | opcode code wf =>
    refine congrArg encodeWords ?_
    rw [address, Code.encode, Code.encode]
    cases fixup : code.fixup with
    | none => rfl
    | some entry =>
      rcases entry with ⟨lbl, f⟩
      obtain ⟨a, found, -⟩ := known lbl (congrArg (Option.map Prod.fst) fixup)
      have moves := relative lbl f fixup
      dsimp only
      rw [target, found, Option.map_some, Option.getD_some, Option.getD_some]
      rw [found, Option.getD_some] at moves
      exact Fixup.encode_moved moves code.words
  | size sym =>
    obtain ⟨a, found, small⟩ := known sym rfl
    refine congrArg wordBytes ?_
    rw [address, address, target, found]
    exact sizeWord_moved small room
  | db _ | data _ _ | resb _ | reserve _ _ | align _ | finishLabels | org _ | execonly | readonly
  | label _ | endfunc _ | type _ _ | global _ | sect _ => rfl

theorem Finished.map_eq (f : Finished env options) (grows : f.program.Grows) {u : State}
    (run : f.program.final.state.prepare = .ok u) :
    ⟨u.baseOf, (firstPass f.program.statements).places⟩ = f.map := by
  obtain ⟨u', run', frame, -⟩ := f.frame grows
  cases run.symm.trans run'
  have base : u.baseOf = f.state.baseOf := funext fun n => (frame.base n).symm
  rw [Finished.map, base]

/-- The end of every section can be moved within the address space. -/
def Finished.Room (f : Finished env options) (d : BitVec 128) : Prop :=
  ∀ n, (f.state.baseOf n).toNat + (f.state.bytes n).length + d.toNat < 2 ^ 128

namespace Finished
variable {f : Finished env options}

theorem Room.address (room : f.Room d) {n : Str} {offset : Nat}
    (inside : offset ≤ (f.state.bytes n).length) :
    (f.map.address n offset).toNat + d.toNat < 2 ^ 128 := by
  have small := room n
  change (f.state.baseOf n + BitVec.ofNat 128 offset).toNat + _ < _
  rw [BitVec.toNat_add, BitVec.toNat_ofNat]
  omega

theorem Room.target (room : f.Room d) (grows : f.program.Grows) {lbl : Str} {a : BitVec 128}
    (known : f.map.target lbl = some a) : a.toNat + d.toNat < 2 ^ 128 := by
  rw [Finished.map, ← f.linkMap_eq grows] at known
  cases found : f.state.lookup[lbl]? with
  | none =>
    change Option.map _ ((f.state.lookup[lbl]?).map SymbolLocation.place) = _ at known
    rw [found] at known
    cases known
  | some sym =>
    rw [State.linkMap_target found] at known
    cases known
    exact room.address (f.label_within grows found)

theorem Room.start (room : f.Room d) (grows : f.program.Grows) {pre post : List Statement}
    {x : Statement} (split : f.program.statements = pre ++ x :: post) :
    (f.map.address (firstPass pre).current ((firstPass pre).size (firstPass pre).current)).toNat +
      d.toNat < 2 ^ 128 := by
  refine room.address ?_
  rw [f.image grows, split, ← (passes_agree f.state.linkMap pre).2]
  have grown := Image.run_extends f.state.linkMap (x :: post)
    (pre.foldl (Image.next f.state.linkMap) Image.start) (firstPass pre).current
  rw [← List.foldl_append] at grown
  exact grown.length_le

end Finished

/-- A program that cuts nothing off, refers to its labels by their distances and has no .org can be
    assembled some pages later: it is accepted again with the same output, and everything stands so
    much later. -/
theorem program_moves (f : Finished env options) (grows : f.program.Grows)
    (floating : f.program.Floating) (page : 4096 ∣ d.toNat)
    (relative : ∀ pre x post, f.program.statements = pre ++ x :: post →
      x.Relative f.map (firstPass pre))
    (room : f.Room d) :
    ∃ g : Finished env { options with base := options.base + d },
      g.program = f.program.rebase floating page ∧ g.state.bytes = f.state.bytes ∧
      (∀ n, n ∈ f.state.sections → g.state.baseOf n = f.state.baseOf n + d) ∧
      ∀ lbl, g.map.target lbl = (f.map.target lbl).map (· + d) := by
  obtain ⟨u, run, -, known⟩ := f.frame grows
  obtain ⟨u', run', -⟩ := (f.program.rebase floating page).prepared
  have grows' := Program.rebase_grows grows floating page
  have moved := f.moved grows floating page run'
  have reach : ∀ pre x post, f.program.statements = pre ++ x :: post →
      x.InReach f.map (firstPass pre) := by
    rw [← f.map_eq grows run]
    refine (grows.accepts_iff run).mp ?_
    rw [f.done]
    rfl
  have accepted := (grows'.accepts_iff run').mpr fun pre x post split lbl refers => by
    obtain ⟨target, found, near⟩ := reach pre x post split lbl refers
    refine ⟨target + d, ?_, fun jumps => ?_⟩
    · exact (moved.target lbl).trans (congrArg (Option.map (· + d)) found)
    · have distance := near jumps
      have same : target + d - (f.map.address (firstPass pre).current
          (x.start ((firstPass pre).size (firstPass pre).current)) + d) =
          target - f.map.address (firstPass pre).current
            (x.start ((firstPass pre).size (firstPass pre).current)) := by ring
      rw [← same, ← moved.address pre x post split] at distance
      exact distance
  let g : Finished env { options with base := options.base + d } :=
    ⟨f.program.rebase floating page, result (f.program.rebase floating page).final.state.finish,
      eq_ok_result accepted⟩
  have map : (⟨u'.baseOf, (firstPass f.program.statements).places⟩ : LinkMap) = g.map :=
    g.map_eq grows' run'
  rw [map] at moved
  refine ⟨g, rfl, ?_, fun n mem => ?_, moved.target⟩
  · rw [g.image grows', f.image grows, g.linkMap_eq grows', f.linkMap_eq grows]
    refine congrArg Image.bytes (secondPass_congr f.program.statements fun pre x post split => ?_)
    refine Statement.content_moved (moved.address pre x post split) moved.target (fun lbl refers => ?_)
      (room.start grows split) (relative pre x post split)
    obtain ⟨target, found, -⟩ := reach pre x post split lbl refers
    exact ⟨target, found, room.target grows found⟩
  · have base := Program.rebase_bases floating page run run' ((known n).mp mem)
    have here := congrArg (fun m : LinkMap => m.base n) (f.map_eq grows run)
    have there := congrArg (fun m : LinkMap => m.base n) map
    exact there.symm.trans (base.trans (congrArg (· + d) here))

end Programs

theorem loop_moves : ∃ (f : Finished Env.noFiles {})
    (g : Finished Env.noFiles { ({} : Options) with base := ({} : Options).base + 0x1000 }),
    f.map.target (lit "f") = some 0x100000 ∧ g.map.target (lit "f") = some 0x101000 ∧
      g.state.bytes = f.state.bytes := by
  obtain ⟨p, listed, along, accepted, floating, target, only, small⟩ : ∃ p : Program Env.noFiles {},
      p.statements =
          [.label (lit "f"), .opcode ((Labelled.jump 1).code (lit "f")) callF_wellFormed] ∧
        Along Statement.exec Growing (State.new {}) p.statements ∧
        p.final.state.finish.isOk = true ∧ p.Floating ∧
        (LinkMap.mk (result p.final.state.finish).baseOf (firstPass p.statements).places).target
          (lit "f") = some 0x100000 ∧
        (result p.final.state.finish).sections.keys = [lit ".text"] ∧
        ((result p.final.state.finish).baseOf (lit ".text")).toNat +
          ((result p.final.state.finish).bytes (lit ".text")).length < 2 ^ 24 :=
    ⟨Program.ofSource {} (lit "f: call f") (by decide +kernel), by decide +kernel⟩
  let f : Finished Env.noFiles {} := ⟨p, result p.final.state.finish, eq_ok_result accepted⟩
  have room : f.Room 0x1000 := by
    intro n
    by_cases known : n ∈ f.state.sections
    · have name : n ∈ [lit ".text"] := only ▸ Std.ExtTreeMap.mem_keys.mpr known
      cases List.mem_singleton.mp name
      have low : (f.state.baseOf (lit ".text")).toNat + (f.state.bytes (lit ".text")).length < 2 ^ 24 :=
        small
      change _ + 2 ^ 12 < _
      omega
    · have missing := Std.ExtTreeMap.getElem?_eq_none known
      simp [State.baseOf, State.bytes, State.sectionAt, missing]
  have relative : ∀ pre x post, f.program.statements = pre ++ x :: post →
      x.Relative f.map (firstPass pre) := by
    intro pre x post split
    have mem : x ∈ p.statements := by
      rw [split]
      simp
    rw [listed] at mem
    rcases List.mem_pair.mp mem with rfl | rfl
    · exact True.intro
    · rintro lbl fix same
      cases same
      exact True.intro
  obtain ⟨g, -, bytes, -, moved⟩ := program_moves f (p.grows_iff.mpr along) floating
    (d := 0x1000) (by decide) relative room
  refine ⟨f, g, target, ?_, bytes⟩
  have here : f.map.target (lit "f") = some 0x100000 := target
  rw [moved, here]
  rfl

end BigAsm
