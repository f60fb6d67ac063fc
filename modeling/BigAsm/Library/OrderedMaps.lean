import Mathlib

/- The contents of an ordered map as a list: what one insertion does to it up to order, and
   the flattening of a map from names to lists of entries. -/
namespace OrderedMaps
variable {κ β : Type} {cmp : κ → κ → Ordering} [Std.TransCmp cmp] [Std.LawfulEqCmp cmp]

theorem nodup_toList (m : Std.ExtTreeMap κ β cmp) : m.toList.Nodup := by
  have distinct := Std.ExtTreeMap.distinct_keys_toList (t := m)
  refine distinct.imp ?_
  intro a b apart same
  have same' : cmp b.1 b.1 = .eq := Std.ReflCmp.compare_self
  exact apart (same ▸ same')

theorem toList_insert_perm [DecidableEq κ] (m : Std.ExtTreeMap κ β cmp) (k : κ) (v : β) :
    (m.insert k v).toList.Perm ((k, v) :: m.toList.filter fun e => e.1 ≠ k) := by
  have nodup : ((k, v) :: m.toList.filter fun e => e.1 ≠ k).Nodup := by
    refine List.nodup_cons.mpr ⟨?_, (nodup_toList m).filter _⟩
    simp
  refine (List.perm_ext_iff_of_nodup (nodup_toList _) nodup).mpr ?_
  rintro ⟨k', v'⟩
  rw [Std.ExtTreeMap.mem_toList_iff_getElem?_eq_some, Std.ExtTreeMap.getElem?_insert]
  by_cases same : k = k'
  · subst k'
    have same' : cmp k k = .eq := Std.ReflCmp.compare_self
    simp only [same', ite_true, Option.some.injEq, List.mem_cons, Prod.mk.injEq, true_and,
      List.mem_filter, ne_eq, not_true_eq_false, decide_false, Bool.false_eq_true, and_false,
      or_false]
    exact eq_comm
  · simp [same, Ne.symm same, Std.ExtTreeMap.mem_toList_iff_getElem?_eq_some]

theorem toList_perm_of_getElem? [DecidableEq κ] {m : Std.ExtTreeMap κ β cmp} {k : κ} {v : β}
    (found : m[k]? = some v) : m.toList.Perm ((k, v) :: m.toList.filter fun e => e.1 ≠ k) := by
  have same : m.insert k v = m := by
    apply Std.ExtTreeMap.ext_getElem?
    intro k'
    rw [Std.ExtTreeMap.getElem?_insert]
    split
    · rename_i eq
      rw [← Std.LawfulEqCmp.eq_of_compare eq, found]
    · rfl
  simpa [same] using toList_insert_perm m k v

theorem toList_of_not_mem [DecidableEq κ] {m : Std.ExtTreeMap κ β cmp} {k : κ}
    (missing : m[k]? = none) : (m.toList.filter fun e => e.1 ≠ k) = m.toList := by
  refine List.filter_eq_self.mpr ?_
  rintro ⟨k', v'⟩ mem
  have found := Std.ExtTreeMap.mem_toList_iff_getElem?_eq_some.mp mem
  simp only [ne_eq, decide_eq_true_eq]
  rintro rfl
  simp [missing] at found

/-- A map from names to lists, read as one list of named entries. -/
def flatten (m : Std.ExtTreeMap κ (List β) cmp) : List (κ × β) :=
  m.toList.flatMap fun (k, vs) => vs.map (k, ·)

def push (m : Std.ExtTreeMap κ (List β) cmp) (k : κ) (v : β) : Std.ExtTreeMap κ (List β) cmp :=
  m.alter k fun vs => some (vs.getD [] ++ [v])

theorem push_eq_insert (m : Std.ExtTreeMap κ (List β) cmp) (k : κ) (v : β) :
    push m k v = m.insert k ((m[k]?).getD [] ++ [v]) := by
  apply Std.ExtTreeMap.ext_getElem?
  intro k'
  rw [push, Std.ExtTreeMap.getElem?_alter, Std.ExtTreeMap.getElem?_insert]

theorem flatten_push_perm [DecidableEq κ] (m : Std.ExtTreeMap κ (List β) cmp) (k : κ) (v : β) :
    (flatten (push m k v)).Perm (flatten m ++ [(k, v)]) := by
  rw [push_eq_insert, flatten, flatten]
  refine ((toList_insert_perm m k _).flatMap_right _).trans ?_
  rw [List.flatMap_cons]
  cases found : m[k]? with
  | none =>
    rw [toList_of_not_mem found]
    exact List.perm_append_comm
  | some vs =>
    refine List.Perm.trans ?_ (((toList_perm_of_getElem? found).flatMap_right _).append_right _).symm
    simp only [Option.getD_some, List.map_append, List.flatMap_cons, List.map_cons, List.map_nil,
      List.append_assoc]
    exact List.Perm.append_left _ List.perm_append_comm

/-- The entries of one name stand together in the list, in the order of their pushes. -/
theorem flatten_split {m : Std.ExtTreeMap κ (List β) cmp} {k : κ} {front back : List β} {v : β}
    (found : m[k]? = some (front ++ v :: back)) : ∃ before after,
      flatten m = before ++ (k, v) :: after ∧ ∀ e ∈ after, e.1 = k → e.2 ∈ back := by
  have mem := Std.ExtTreeMap.mem_toList_iff_getElem?_eq_some.mpr found
  obtain ⟨left, right, split⟩ := List.append_of_mem mem
  have distinct := Std.ExtTreeMap.distinct_keys_toList (t := m)
  rw [split] at distinct
  have others := (List.pairwise_cons.mp (List.pairwise_append.mp distinct).2.1).1
  refine ⟨left.flatMap (fun (k, vs) => vs.map (k, ·)) ++ front.map (k, ·),
    back.map (k, ·) ++ right.flatMap (fun (k, vs) => vs.map (k, ·)), ?_, ?_⟩
  · rw [flatten, split]
    simp
  · rintro ⟨k', w⟩ inside rfl
    rcases List.mem_append.mp inside with here | later
    · obtain ⟨w', mem', same⟩ := List.mem_map.mp here
      cases same
      exact mem'
    · -- no other node of the map has this name
      obtain ⟨⟨k, ws⟩, node, listed⟩ := List.mem_flatMap.mp later
      obtain ⟨w', -, same⟩ := List.mem_map.mp listed
      cases same
      have apart := others (k', ws) node
      exact absurd Std.ReflCmp.compare_self apart

theorem toList_filter [DecidableEq κ] (m : Std.ExtTreeMap κ β cmp) (k : κ) :
    (m.toList.filter fun e => e.1 = k) = ((m[k]?).map (k, ·)).toList := by
  cases found : m[k]? with
  | none =>
    have others := toList_of_not_mem found
    refine List.filter_eq_nil_iff.mpr ?_
    intro e mem
    rw [← others] at mem
    simpa using (List.mem_filter.mp mem).2
  | some v =>
    have one := (toList_perm_of_getElem? found).filter fun e => decide (e.1 = k)
    have none : ((m.toList.filter fun e => e.1 ≠ k).filter fun e => e.1 = k) = [] := by
      refine List.filter_eq_nil_iff.mpr ?_
      intro e mem
      simpa using (List.mem_filter.mp mem).2
    rw [List.filter_cons_of_pos (by simp), none] at one
    exact List.perm_singleton.mp one

theorem flatten_filter [DecidableEq κ] (m : Std.ExtTreeMap κ (List β) cmp) (k : κ) :
    ((flatten m).filter fun e => e.1 = k).map Prod.snd = (m[k]?).getD [] := by
  have node : ∀ e : κ × List β, ((e.2.map (e.1, ·)).filter fun e => e.1 = k) =
      if e.1 = k then e.2.map (e.1, ·) else [] := by
    intro e
    by_cases same : e.1 = k <;> simp [same, List.filter_map, Function.comp_def]
  have nodes : ∀ es : List (κ × List β),
      (es.flatMap fun e => if e.1 = k then e.2.map (e.1, ·) else []) =
        (es.filter fun e => e.1 = k).flatMap fun e => e.2.map (e.1, ·) := by
    intro es
    induction es with
    | nil => rfl
    | cons e es ih => by_cases same : e.1 = k <;> simp [same, ih]
  have split : ((flatten m).filter fun e => e.1 = k) =
      (m.toList.filter fun e => e.1 = k).flatMap fun e => e.2.map (e.1, ·) := by
    rw [flatten, List.filter_flatMap, ← nodes]
    exact congrArg (List.flatMap · m.toList) (funext node)
  rw [split, toList_filter]
  cases m[k]? <;> simp
/-- emplace of entry after entry: what is there already stays. -/
def emplaceAll (m : Std.ExtTreeMap κ β cmp) (es : List (κ × β)) : Std.ExtTreeMap κ β cmp :=
  es.foldl (fun m e => m.insertIfNew e.1 e.2) m

theorem getElem?_emplaceAll [BEq κ] [LawfulBEq κ] (m : Std.ExtTreeMap κ β cmp)
    (es : List (κ × β)) (k : κ) : (emplaceAll m es)[k]? = m[k]?.or (es.lookup k) := by
  induction es generalizing m with
  | nil => simp [emplaceAll]
  | cons e es ih =>
    have step : (emplaceAll m (e :: es))[k]? = (emplaceAll (m.insertIfNew e.1 e.2) es)[k]? := rfl
    rw [step, ih, Std.ExtTreeMap.getElem?_insertIfNew, List.lookup_cons]
    by_cases same : e.1 = k
    · subst same
      by_cases known : e.1 ∈ m <;> simp [known]
    · simp [same, beq_false_of_ne (Ne.symm same)]

theorem emplaceAll_comm [BEq κ] [LawfulBEq κ] (m : Std.ExtTreeMap κ β cmp) {es fs : List (κ × β)}
    (apart : ∀ e ∈ es, ∀ f ∈ fs, e.1 ≠ f.1) :
    emplaceAll (emplaceAll m es) fs = emplaceAll (emplaceAll m fs) es := by
  apply Std.ExtTreeMap.ext_getElem?
  intro k
  simp only [getElem?_emplaceAll, Option.or_assoc]
  cases left : es.lookup k with
  | none => simp
  | some a =>
    cases right : fs.lookup k with
    | none => simp
    | some b =>
      obtain ⟨before, after, split, -⟩ := List.lookup_eq_some_iff.mp left
      obtain ⟨before', after', split', -⟩ := List.lookup_eq_some_iff.mp right
      exact absurd rfl (apart (k, a) (by simp [split]) (k, b) (by simp [split']))

def pushAll (m : Std.ExtTreeMap κ (List β) cmp) (es : List (κ × β)) :
    Std.ExtTreeMap κ (List β) cmp := es.foldl (fun m e => push m e.1 e.2) m

theorem flatten_pushAll_perm [DecidableEq κ] (m : Std.ExtTreeMap κ (List β) cmp)
    (es : List (κ × β)) : (flatten (pushAll m es)).Perm (flatten m ++ es) := by
  induction es generalizing m with
  | nil => simp [pushAll]
  | cons e es ih =>
    have step : pushAll m (e :: es) = pushAll (push m e.1 e.2) es := rfl
    have pushed := (flatten_push_perm m e.1 e.2).append_right es
    rw [List.append_assoc] at pushed
    rw [step]
    exact (ih (push m e.1 e.2)).trans pushed

theorem getD_pushAll [DecidableEq κ] (m : Std.ExtTreeMap κ (List β) cmp) (es : List (κ × β))
    (k : κ) : ((pushAll m es)[k]?).getD [] =
      (m[k]?).getD [] ++ (es.filter fun e => e.1 = k).map Prod.snd := by
  induction es generalizing m with
  | nil => simp [pushAll]
  | cons e es ih =>
    have step : (pushAll m (e :: es))[k]? = (pushAll (push m e.1 e.2) es)[k]? := rfl
    rw [step, ih, push_eq_insert, Std.ExtTreeMap.getElem?_insert]
    by_cases same : e.1 = k
    · simp [same]
    · simp [same]

def insertAll (m : Std.ExtTreeMap κ Unit cmp) (ks : List κ) : Std.ExtTreeMap κ Unit cmp :=
  ks.foldl (fun m k => m.insert k ()) m

theorem getElem?_insertAll [DecidableEq κ] (m : Std.ExtTreeMap κ Unit cmp) (ks : List κ) (k : κ) :
    (insertAll m ks)[k]? = if k ∈ ks then some () else m[k]? := by
  induction ks generalizing m with
  | nil => simp [insertAll]
  | cons l ks ih =>
    have step : (insertAll m (l :: ks))[k]? = (insertAll (m.insert l ()) ks)[k]? := rfl
    rw [step, ih, Std.ExtTreeMap.getElem?_insert]
    by_cases same : l = k
    · simp [same]
    · simp [same, Ne.symm same]

theorem insertAll_comm [DecidableEq κ] (m : Std.ExtTreeMap κ Unit cmp) (ks ls : List κ) :
    insertAll (insertAll m ks) ls = insertAll (insertAll m ls) ks := by
  apply Std.ExtTreeMap.ext_getElem?
  intro k
  simp only [getElem?_insertAll]
  split <;> split <;> rfl

end OrderedMaps
