import Reified.Proofs.Isolation.Literals
import Reified.Proofs.Isolation.Lookups

/-!
# Instructions behind an older machine

An instruction that stays in its block does behind an older machine what it does on a new one. The registers that
it reads hold no cells under construction, so what it stores may be mentioned by everybody; the cells that it
creates to be filled have an owner, and only their owners are used to fill them.

## Main results

* `Exec.follows_plain` — instructions that have nothing to do with cells under construction
* `Exec.follows_builds` — instructions that create or fill them
* `Exec.follows_instr` — both, and the instructions that open and close frames
-/

namespace Reified

namespace Exec

variable {α β : Type} {m : Machine} {r : Run} {D base : Nat} {owners : Owners} {S S' : List Nat} {v w : Value}

/-- At the end of an instruction, somebody may own other cells than before. -/
def Ends (S : List Nat) (base D : Nat) (_ : Unit) (r : Run) : Prop := ∃ owners, r.Kept owners S base D

/-! ## Registers -/

theorem above_of₁ {a : Register} (h : ∀ x ∈ [a], x.Above S) : a.Above S := List.forall_mem_singleton.mp h

theorem above_of₂ {a b : Register} (h : ∀ x ∈ [a, b], x.Above S) : a.Above S ∧ b.Above S :=
  ⟨h a List.mem_cons_self, above_of₁ (List.forall_mem_cons.mp h).2⟩

theorem above_of₃ {a b c : Register} (h : ∀ x ∈ [a, b, c], x.Above S) : a.Above S ∧ b.Above S ∧ c.Above S :=
  ⟨h a List.mem_cons_self, above_of₂ (List.forall_mem_cons.mp h).2⟩

theorem not_mem_of_above {a : Register} (h : a.Above S) : a.index ∉ S := fun hmem => Nat.lt_irrefl _ (h _ hmem)

section writing

variable (hr : r.Kept owners S base D)

include hr

/-- A value is written at the end of an instruction. -/
theorem follows_store {dst : Register} (hdst : dst.Above S) (hv : v.Settled r.machine.extent owners)
    (hw : w = v.move m.extent) : Follows m r (write dst v) (write dst w) id (Ends S base D) :=
  hw ▸ (follows_write hr (not_mem_of_above hdst) hv).imp fun _ _ h => ⟨owners, h.2⟩

/-- A value without a cell is written at the end of an instruction. -/
theorem follows_storePlain {dst : Register} (hdst : dst.Above S) (hv : v.Within r.machine.extent)
    (hcell : v.cell? = none) (hw : w = v.move m.extent) :
    Follows m r (write dst v) (write dst w) id (Ends S base D) :=
  follows_store hr hdst (Value.settled_of_cell?_eq_none hv hcell) hw

theorem follows_storeType {dst : Register} (hdst : dst.Above S) {t : Ty}
    (ht : Table.Below r.machine.table.size t) :
    Follows m r (write dst (.type t)) (write dst (.type (t.shift m.table.size))) id (Ends S base D) :=
  follows_storePlain hr hdst ht rfl rfl

/-- A new cell that nothing has to be filled in is stored. -/
theorem follows_createHole {dst : Register} (hdst : dst.Above S) (x : Hole) :
    Follows m r (create dst (·.newHole x)) (create dst (·.newHole (x.move m.extent))) id (Ends S base D) := by
  refine (Follows.onHeap (f := Value.move m.extent) (Heap.newHole_behind x)).bind ?_
  rintro v r' ⟨rfl, rfl⟩
  have hsize : r.machine.heap.holes.size < (r.machine.heap.newHole x).2.holes.size :=
    Nat.lt_of_lt_of_eq (Nat.lt_succ_self _) (Array.size_push _).symm
  have hkept := hr.withHeap (hr.heap.newHole x) ⟨Nat.le_refl _, Nat.le_refl _, Nat.le_refl _, Nat.le_refl _,
    hsize.le, Nat.le_refl _⟩ fun _ _ => rfl
  exact follows_storePlain hkept hdst hsize rfl rfl

/-- Several types are written at the end of an instruction. -/
theorem follows_writeFrom {first : Register} (hfirst : first.Above S) {ts : List Ty} {done : Nat}
    (hts : ∀ t ∈ ts, Table.Below r.machine.table.size t) : Follows m r (writeFrom first done (ts.map .type))
      (writeFrom first done ((ts.map (Ty.shift m.table.size)).map .type)) id (Ends S base D) := by
  induction ts generalizing r done with
  | nil => exact .pure rfl ⟨owners, hr⟩
  | cons t ts ih =>
    obtain ⟨ht, hts⟩ := List.forall_mem_cons.mp hts
    have hfree := not_mem_of_above (Register.Above.offset hfirst done)
    refine (follows_write hr hfree (Value.settled_type ht)).bind fun _ r' ⟨hmachine, hr'⟩ => ?_
    exact ih hr' (hmachine ▸ hts)

end writing

/-! ## Ranges -/

theorem settled_of_range (hr : r.Kept owners S base D) {first : Register} (hfirst : first.Above S)
    {vs : Array Value} (hvs : ∀ v ∈ vs, ∃ k, r.top.registers[(first.offset k).index]? = some v) (hv : v ∈ vs) :
    v.Settled r.machine.extent owners := by
  obtain ⟨k, hk⟩ := hvs v hv
  exact hr.settled (Register.Above.offset hfirst k) hk

/-- The types that the values of a range of registers are. -/
theorem follows_asTypes (hr : r.Kept owners S base D) {first : Register} (hfirst : first.Above S)
    {vs : Array Value} (hvs : ∀ v ∈ vs, ∃ k, r.top.registers[(first.offset k).index]? = some v)
    {g : List Ty → Exec α} {g' : List Ty → Exec β} {f : α → β} {P : α → Run → Prop}
    (hg : ∀ ts F T, (r.withTypes F T).Kept owners S base D → r.machine.table.size ≤ T.size →
      (∀ t ∈ ts, Table.Below T.size t) →
      Follows m (r.withTypes F T) (g ts) (g' (ts.map (Ty.shift m.table.size))) f P) :
    Follows m r (asTypes [] vs.toList >>= g) (asTypes [] (vs.map (Value.move m.extent)).toList >>= g') f P := by
  rw [Array.toList_map]
  refine .types hr (mirrors_asTypes vs.toList hr.heap (List.forall_mem_nil _) fun v hv => ?_) hg
  exact (settled_of_range hr hfirst hvs (Array.mem_toList_iff.mp hv)).within

/-! ## Elements -/

theorem field?_behind (h H : Heap) (d : Nat) (v : Value) (name : String) :
    field? (h.behind H d) (v.move (H.extent d)) name = (field? h v name).map (Value.move (H.extent d)) := by
  cases v with
  | object c =>
    rw [Value.move, field?, Heap.object_behind, Fields.get?_move]
    rfl
  | _ => rfl

theorem any_isTypeLevel_move (o : Extent) (vs : Array Value) :
    (vs.map (Value.move o)).any Value.isTypeLevel = vs.any Value.isTypeLevel := by
  rw [Array.any_map]
  exact congrArg vs.any (funext fun v => Value.isTypeLevel_move)

/-- The element of a value of which only now it is known what it is. -/
theorem follows_subscript (hr : r.Kept owners S base D) {target i : Value}
    (ht : target.Settled r.machine.extent owners) (hi : i.Settled r.machine.extent owners) :
    Follows m r (subscript target i) (subscript (target.move m.extent) (i.move m.extent))
      (Value.move m.extent) fun v r' => r'.Kept owners S base D ∧ v.Settled r'.machine.extent owners := by
  have hhole : Follows m r
      (if target.isTypeLevel || i.isTypeLevel then onHeap (·.newHole (.subscript target i))
        else do throw (.notIndexable (← text target) (← text i)))
      (if (target.move m.extent).isTypeLevel || (i.move m.extent).isTypeLevel
        then onHeap (·.newHole (.subscript (target.move m.extent) (i.move m.extent)))
        else do throw (.notIndexable (← text (target.move m.extent)) (← text (i.move m.extent))))
      (Value.move m.extent) fun v r' => r'.Kept owners S base D ∧ v.Settled r'.machine.extent owners := by
    rw [Value.isTypeLevel_move, Value.isTypeLevel_move]
    refine .ite (fun _ => ?_) fun _ => ?_
    · refine (Follows.onHeap (Heap.newHole_behind (.subscript target i))).imp ?_
      rintro v r' ⟨rfl, rfl⟩
      have hsize : r.machine.heap.holes.size < (r.machine.heap.newHole (.subscript target i)).2.holes.size :=
        Nat.lt_of_lt_of_eq (Nat.lt_succ_self _) (Array.size_push _).symm
      exact ⟨hr.withHeap (hr.heap.newHole _) ⟨Nat.le_refl _, Nat.le_refl _, Nat.le_refl _, Nat.le_refl _,
        hsize.le, Nat.le_refl _⟩ fun _ _ => rfl, Value.settled_of_cell?_eq_none hsize rfl⟩
    · exact .fails hr (mirrors_throwTexts (P := fun _ _ => False) hr.heap ht.within hi.within
        (.notIndexable _ _)) fun _ _ => id
  cases target with
  | tuple c =>
    cases i with
    | number x =>
      rw [Value.move, Value.move, subscript, subscript]
      refine .types hr (mirrors_index (v := .number x) hr.heap hi.within) fun k F T hr' _ _ => ?_
      refine (Follows.of_mirrors hr' (mirrors_item hr'.heap ?_)).imp ?_
      · exact mirrors_throwTexts (v := .number x) hr'.heap trivial
          (ht.within.mono (Heap.extent_le ‹_›)) (.indexOutOfBounds _ _)
      · rintro v r' ⟨F', T', rfl, hkept, -, hv⟩
        exact ⟨hkept, hv⟩
    | _ => exact hhole
  | object c =>
    cases i with
    | string name =>
      rw [Value.move, Value.move, subscript, subscript]
      refine .heap ?_
      rw [Heap.object_behind, Fields.get?_move]
      cases hget : Fields.get? name (r.machine.heap.object c) with
      | some v => exact .pure rfl ⟨hr, hr.heap.field hget⟩
      | none => exact follows_throwText hr ht.within (.missingField name _)
    | _ => exact hhole
  | _ => cases i <;> exact hhole

/-! ## Instructions that have nothing to do with cells under construction -/

/-- **An instruction that creates or fills no cells**, and opens or closes no frame. -/
theorem follows_plain {i : Instr} (hm : m.Clean) (hr : r.Kept owners S base D) (hbuilds : ¬i.Builds)
    (hregisters : ∀ x ∈ i.registers, x.Above S) (hpush : i ≠ .pushFrame) (hpop : i ≠ .popFrame)
    (hpositive : r.top.environment ≠ 0) (hknown : r.top.environment < r.machine.heap.environments.size) :
    Follows m r (instr i) (instr i) id (Ends S base D) := by
  have hclean := hr.clean
  have hbool {r : Run} (hr : r.Kept owners S base D) {dst : Register} (hdst : dst.Above S) {b b' : Bool}
      (hb : b' = b) : Follows m r (write dst (.bool b)) (write dst (.bool b')) id (Ends S base D) :=
    follows_storePlain hr hdst trivial rfl (by rw [hb]; rfl)
  cases i with
  | leave | call | newFunction => exact .pure rfl ⟨owners, hr⟩
  | newArray | setArrayIndex | newTuple | setTupleIndex | newObject | setField | newValue =>
    exact absurd trivial hbuilds
  | pushFrame => exact absurd rfl hpush
  | popFrame => exact absurd rfl hpop
  | move dst src =>
    obtain ⟨hdst, hsrc⟩ := above_of₂ hregisters
    exact .read hclean fun v hv => follows_store hr hdst (hr.settled hsrc hv) rfl
  | loadConstant dst c =>
    have hdst := above_of₁ hregisters
    exact .constant hclean fun c => by
      cases c <;> exact follows_storePlain hr hdst trivial rfl rfl
  | getLocal dst j =>
    have hdst := above_of₁ hregisters
    exact .identifier hclean fun name => .lookup hm hr hknown fun v hv => follows_store hr hdst hv rfl
  | setLocal j src =>
    have hsrc := above_of₁ hregisters
    refine .identifier hclean fun name => .read hclean fun v hv => ?_
    show Follows m r (onHeap fun h => ((), h.define r.top.environment name v))
      (onHeap fun h => ((), h.define (m.extent.environment r.top.environment) name (v.move m.extent))) id _
    refine (Follows.onHeap (congrArg (Prod.mk ()) (Heap.define_behind hpositive name v))).imp ?_
    rintro _ r' ⟨-, rfl⟩
    exact ⟨owners, hr.withHeap (hr.heap.define hpositive (hr.settled hsrc hv) name) ⟨Nat.le_refl _,
      Nat.le_refl _, Nat.le_refl _, Nat.le_refl _, Nat.le_refl _, Nat.le_of_eq Heap.size_define.symm⟩
      fun _ _ => rfl⟩
  | getArrayIndex dst array j =>
    obtain ⟨hdst, harray, hj⟩ := above_of₃ hregisters
    refine .read hclean fun target ht => .read hclean fun i hi => ?_
    have ht := hr.settled harray ht
    have hi := hr.settled hj hi
    cases target with
    | array c =>
      refine .types hr (mirrors_index hr.heap hi.within) fun k F T hr' hsize _ => ?_
      have hle := Heap.extent_le (h := r.machine.heap) hsize
      refine .types hr' (mirrors_item hr'.heap ?_) fun v F' T' hr'' _ hv => follows_store hr'' hdst hv rfl
      exact mirrors_throwTexts hr'.heap (hi.within.mono hle) (ht.within.mono hle) (.indexOutOfBounds _ _)
    | _ => exact follows_throwText hr ht.within (.notArray _)
  | getTupleIndex dst tuple j =>
    obtain ⟨hdst, htuple⟩ := above_of₂ hregisters
    refine .read hclean fun target ht => ?_
    have ht := hr.settled htuple ht
    cases target with
    | tuple c =>
      refine .types hr (mirrors_item hr.heap ?_) fun v F' T' hr' _ hv => follows_store hr' hdst hv rfl
      exact mirrors_throwText hr.heap ht.within (.itemOutOfBounds _ _)
    | _ => exact follows_throwText hr ht.within (.notTuple _)
  | getField dst object f =>
    obtain ⟨hdst, hobject⟩ := above_of₂ hregisters
    refine .identifier hclean fun name => .read hclean fun target ht => ?_
    have ht := hr.settled hobject ht
    refine .heap ?_
    rw [field?_behind]
    cases hget : field? r.machine.heap target name with
    | some v => exact follows_store hr hdst (hr.heap.field? hget) rfl
    | none => exact follows_throwText hr ht.within (.missingField name _)
  | tryGetField dst object f t =>
    obtain ⟨hdst, hobject⟩ := above_of₂ hregisters
    refine .identifier hclean fun name => .read hclean fun target ht => ?_
    refine .heap ?_
    rw [field?_behind]
    cases hget : field? r.machine.heap target name with
    | some v => exact follows_store hr hdst (hr.heap.field? hget) rfl
    | none => exact (follows_jump hr t).imp fun _ _ h => ⟨owners, h⟩
  | jump t => exact (follows_jump hr t).imp fun _ _ h => ⟨owners, h⟩
  | jumpIfFalse condition t =>
    have hcondition := above_of₁ hregisters
    refine .read hclean fun v hv => ?_
    have hv := hr.settled hcondition hv
    cases v with
    | bool b =>
      cases b with
      | true => exact .pure rfl ⟨owners, hr⟩
      | false => exact (follows_jump hr t).imp fun _ _ h => ⟨owners, h⟩
    | _ => exact follows_throwText hr hv.within (.notCondition _)
  | isEqual dst lhs rhs =>
    have hdst := (above_of₃ hregisters).1
    exact .read hclean fun a _ => .read hclean fun b _ => hbool hr hdst Value.same_move
  | pushScope =>
    show Follows m r (onHeap (·.newEnvironment (some r.top.environment)) >>= setEnvironment)
      (onHeap (·.newEnvironment (some (m.extent.environment r.top.environment))) >>= setEnvironment) _ _
    refine (Follows.onHeap (f := m.extent.environment)
      (Heap.newEnvironment_behind hr.heap.known r.top.environment)).bind ?_
    rintro e r' ⟨rfl, rfl⟩
    have hkept := hr.withHeap (hr.heap.newEnvironment (some r.top.environment)) ⟨Nat.le_refl _, Nat.le_refl _,
      Nat.le_refl _, Nat.le_refl _, Nat.le_refl _, (r.machine.heap.later_newEnvironment _).size⟩ fun _ _ => rfl
    exact .of_ok rfl rfl ⟨owners, { hkept with }⟩
  | popScope =>
    have hparent : (r.behind m).machine.heap.parent? (r.behind m).top.environment = _ :=
      (hr.rooted hm).parent? hknown
    refine .get ?_
    rw [hparent]
    cases r.machine.heap.parent? r.top.environment with
    | some outer => exact .of_ok rfl rfl ⟨owners, { hr with }⟩
    | none => exact .throw hclean id
  | unify lhs rhs =>
    obtain ⟨hlhs, hrhs⟩ := above_of₂ hregisters
    refine .read hclean fun a ha => .types hr (mirrors_asType hr.heap (hr.settled hlhs ha).within)
      fun t F T hr' hsize ht => .read hr'.clean fun b hb => .types hr' (mirrors_asType hr'.heap
        (hr'.settled hrhs hb).within) fun u F' T' hr'' hsize' hu => ?_
    refine (Follows.of_mirrors hr'' (mirrors_unify (below_mono hsize' ht) hu)).imp ?_
    rintro _ r' ⟨F'', T'', rfl, hkept, -, -⟩
    exact ⟨owners, hkept⟩
  | resolveType dst ty =>
    obtain ⟨hdst, hty⟩ := above_of₂ hregisters
    exact .read hclean fun v hv => .types hr (mirrors_asType hr.heap (hr.settled hty hv).within)
      fun t F T hr' _ ht => .types hr' (mirrors_resolveDeep ht) fun u F' T' hr'' _ hu =>
        follows_storeType hr'' hdst hu
  | checkType dst ty expected =>
    obtain ⟨hdst, hty⟩ := above_of₂ hregisters
    exact .read hclean fun v hv => .types hr (mirrors_checkType expected (hr.settled hty hv).within)
      fun b F T hr' _ _ => hbool hr' hdst rfl
  | checkTypeOf dst value expected =>
    obtain ⟨hdst, hvalue⟩ := above_of₂ hregisters
    exact .read hclean fun v hv => .types hr (mirrors_checkTypeOf hr.heap expected (hr.settled hvalue hv).within)
      fun b F T hr' _ _ => hbool hr' hdst rfl
  | typeError j => exact .message fun s => .throw hclean id
  | runtimeError j => exact .message fun s => .throw hclean id
  | inferImplicit function count first =>
    obtain ⟨hfunction, hfirst⟩ := above_of₂ hregisters
    refine .read hclean fun callee hcallee => ?_
    have hcallee := hr.settled hfunction hcallee
    cases callee with
    | function c =>
      show Follows m r
        (inferImplicit (r.machine.heap.closure c) count.toNat
          (r.top.registers.extract first.index r.top.registers.size) >>= fun ts =>
            writeFrom first 0 (ts.map .type))
        (inferImplicit ((r.machine.heap.behind m.heap m.table.size).closure (c + m.extent.closures)) count.toNat
          ((r.top.registers.map (Value.move m.extent)).extract first.index
            (r.top.registers.map (Value.move m.extent)).size) >>= fun ts =>
            writeFrom first 0 (ts.map .type)) _ _
      rw [Heap.closure_behind hcallee.within, Array.size_map, ← Array.map_extract]
      refine .types hr (mirrors_inferImplicit hr.heap (hr.heap.closures c hcallee.within).1 count.toNat
        fun v hv => ?_) fun ts F T hr' _ hts => follows_writeFrom hr' hfirst hts
      obtain ⟨k, hk, rfl⟩ := Array.mem_extract_iff_getElem.mp hv
      exact hr.top.within (Array.getElem?_eq_getElem _)
    | _ => exact follows_throwText hr hcallee.within (.noImplicit _)
  | newVarType dst name inferred rigid =>
    have hdst := above_of₁ hregisters
    exact .identifier hclean fun name => .types hr (mirrors_newVar name inferred rigid) fun t F T hr' _ ht =>
      follows_storeType hr' hdst ht
  | newNameType dst name =>
    have hdst := above_of₁ hregisters
    exact .identifier hclean fun name => follows_storePlain hr hdst (v := .type (.name name))
      (List.forall_mem_nil _) rfl rfl
  | newArrayType dst item =>
    obtain ⟨hdst, hitem⟩ := above_of₂ hregisters
    exact .read hclean fun v hv => .types hr (mirrors_asType hr.heap (hr.settled hitem hv).within)
      fun t F T hr' _ ht => follows_storePlain hr' hdst (v := .type (.array t)) ht rfl rfl
  | newTupleType dst count first =>
    obtain ⟨hdst, hfirst⟩ := above_of₂ hregisters
    refine .readRange hclean fun vs hvs => follows_asTypes hr hfirst hvs fun ts F T hr' _ hts =>
      follows_storePlain hr' hdst (v := .type (.tuple ts)) (below_tuple hts) rfl
        (congrArg Value.type (Ty.shift_tuple ts)).symm
  | newRecordType dst count firstKey firstType =>
    obtain ⟨hdst, hkey, htype⟩ := above_of₃ hregisters
    refine .readRange hclean fun keys hkeys => .readRange hclean fun vs hvs =>
      follows_asTypes hr htype hvs fun ts F T hr' hsize hts => ?_
    rw [Array.toList_map]
    refine .types hr' (mirrors_recordFields hr'.heap keys.toList ts (List.forall_mem_nil _) hts
      fun v hv => ?_) fun fs F' T' hr'' _ hfs => ?_
    · exact (settled_of_range hr hkey hkeys (Array.mem_toList_iff.mp hv)).within.mono (Heap.extent_le hsize)
    · exact follows_storePlain hr'' hdst (v := .type (.record fs)) (below_record hfs) rfl
        (congrArg Value.type (Ty.shift_record fs)).symm
  | newFunctionType dst count first result implicit =>
    obtain ⟨hdst, hfirst, hresult⟩ := above_of₃ hregisters
    refine .readRange hclean fun vs hvs => follows_asTypes hr hfirst hvs fun ps F T hr' hsize hps => ?_
    refine .read hr'.clean fun v hv => .types hr' (mirrors_asType hr'.heap (hr'.settled hresult hv).within)
      fun t F' T' hr'' hsize' ht => ?_
    have hbelow : Table.Below T'.size (.fn ps t implicit.toNat) :=
      below_fn (fun p hp => below_mono hsize' (hps p hp)) ht
    exact follows_storePlain hr'' hdst (v := .type (.fn ps t implicit.toNat)) hbelow rfl
      (congrArg Value.type (Ty.shift_fn ps t _)).symm
  | newUnionType dst lhs rhs =>
    obtain ⟨hdst, hlhs, hrhs⟩ := above_of₃ hregisters
    refine .read hclean fun a ha => .types hr (mirrors_asType hr.heap (hr.settled hlhs ha).within)
      fun t F T hr' hsize ht => .read hr'.clean fun b hb => .types hr' (mirrors_asType hr'.heap
        (hr'.settled hrhs hb).within) fun u F' T' hr'' hsize' hu => ?_
    refine follows_storeType hr'' hdst (t := .union t u) fun w hw => ?_
    rcases List.mem_append.mp hw with hw | hw
    · exact below_mono hsize' ht w hw
    · exact hu w hw
  | newBindingType dst name ty =>
    obtain ⟨hdst, hty⟩ := above_of₂ hregisters
    exact .identifier hclean fun name => .read hclean fun v hv =>
      .types hr (mirrors_asType hr.heap (hr.settled hty hv).within) fun t F T hr' _ ht =>
        follows_storePlain hr' hdst (v := .type (.binding name t)) ht rfl rfl
  | getTypeForValue dst value =>
    obtain ⟨hdst, hvalue⟩ := above_of₂ hregisters
    exact .read hclean fun v hv => .types hr (mirrors_typeOf hr.heap (hr.settled hvalue hv).within)
      fun t F T hr' _ ht => follows_storeType hr' hdst ht
  | newCallHole dst callee argc first =>
    obtain ⟨hdst, hcallee, hfirst⟩ := above_of₃ hregisters
    refine .read hclean fun v hv => .readRange hclean fun vs _ => ?_
    rw [Value.isTypeLevel_move, any_isTypeLevel_move, Array.toList_map]
    refine .ite (fun _ => follows_createHole hr hdst (.call v vs.toList)) fun _ => ?_
    exact follows_throwText hr (hr.settled hcallee hv).within (.notCallable _)
  | newSubscriptHole dst target j =>
    obtain ⟨hdst, htarget, hj⟩ := above_of₃ hregisters
    exact .read hclean fun v hv => .read hclean fun w hw =>
      (follows_subscript hr (hr.settled htarget hv) (hr.settled hj hw)).bind fun u r' hu =>
        follows_store hu.1 hdst hu.2 rfl
  | newMemberHole dst object f =>
    obtain ⟨hdst, hobject⟩ := above_of₂ hregisters
    refine .identifier hclean fun name => .read hclean fun v hv => ?_
    rw [Value.isTypeLevel_move]
    refine .ite (fun _ => follows_createHole hr hdst (.member v name)) fun _ => ?_
    exact follows_throwText hr (hr.settled hobject hv).within (.missingField name _)
  | isCell dst value kind =>
    have hdst := (above_of₂ hregisters).1
    exact .read hclean fun v _ => hbool hr hdst (by rw [Value.cellKind?_move])

/-! ## Instructions that create cells or fill them -/

/-- **A new cell to be filled** is stored. -/
theorem follows_createCell (hr : r.Kept owners S base D) {dst : Register} (hdst : dst.Above S) {c : Cell}
    {g g' : Heap → Value × Heap}
    (hg : g' (r.machine.heap.behind m.heap m.table.size) =
      ((g r.machine.heap).1.move m.extent, (g r.machine.heap).2.behind m.heap m.table.size))
    (hkept : ∀ o, (g r.machine.heap).2.Kept (Function.update owners c o) r.machine.table.size)
    (hle : r.machine.heap.extent r.machine.table.size ≤ (g r.machine.heap).2.extent r.machine.table.size)
    (hnew : ¬r.machine.heap.Has c) (hcell : (g r.machine.heap).1.cell? = some c)
    (hwithin : (g r.machine.heap).1.Within ((g r.machine.heap).2.extent r.machine.table.size)) :
    Follows m r (create dst g) (create dst g') id (Ends (dst.index :: S) base D) := by
  refine (Follows.onHeap hg).bind ?_
  rintro v r' ⟨rfl, rfl⟩
  have hne {b : Cell} (hb : r.machine.heap.Has b) : b ≠ c := fun heq => hnew (heq ▸ hb)
  have hr' := hr.withHeap (hkept (some (r.callers.length, dst.index))) hle fun b hb =>
    Function.update_of_ne (hne hb) _ _
  refine .write hr'.clean ⟨_, { hr' with top := ?_ }⟩
  exact hr'.top.create (not_mem_of_above hdst) hwithin hcell (Function.update_self _ _ _)

/-- **A cell is filled.** -/
theorem follows_fill (hr : r.Kept owners S base D) {g g' : Heap → Heap}
    (hg : g' (r.machine.heap.behind m.heap m.table.size) =
      (g r.machine.heap).behind m.heap m.table.size)
    (hkept : (g r.machine.heap).Kept owners r.machine.table.size)
    (hle : r.machine.heap.extent r.machine.table.size ≤ (g r.machine.heap).extent r.machine.table.size) :
    Follows m r (onHeap fun h => ((), g h)) (onHeap fun h => ((), g' h)) id (Ends S base D) := by
  refine (Follows.onHeap (congrArg (Prod.mk ()) hg)).imp ?_
  rintro _ r' ⟨-, rfl⟩
  exact ⟨owners, hr.withHeap hkept hle fun _ _ => rfl⟩

/-- A register that holds a cell under construction. -/
theorem owned_of_held (hr : r.Kept owners S base D) {src : Register} (hsrc : src.index ∈ S) {c : Cell}
    (hv : r.top.registers[src.index]? = some v) (hc : v.cell? = some c) : owners c ≠ none := by
  rw [hr.top.held hv hsrc hc]
  exact nofun

/-- An item of a cell under construction is stored. -/
theorem follows_setItem (hr : r.Kept owners S base D) {c : Nat} (hc : owners (.list c) ≠ none)
    (hv : v.Settled r.machine.extent owners) (i : Nat) :
    Follows m r (onHeap fun h => ((), h.setItem c i v))
      (onHeap fun h => ((), h.setItem (c + m.extent.lists) i (v.move m.extent))) id (Ends S base D) :=
  follows_fill hr (g := (·.setItem c i v)) (Heap.setItem_behind c i v) (hr.heap.setItem hc hv i) ⟨Nat.le_refl _,
    Nat.le_of_eq Array.size_modify.symm, Nat.le_refl _, Nat.le_refl _, Nat.le_refl _, Nat.le_refl _⟩

/-- **An instruction that creates cells or fills one.** -/
theorem follows_builds {i : Instr} (hr : r.Kept owners S base D) (hbuilds : i.Builds) (hi : i.Fills S S') :
    Follows m r (instr i) (instr i) id (Ends S' base D) := by
  have hclean := hr.clean
  have hlists (items : Array Value) : r.machine.heap.lists.size < (r.machine.heap.lists.push items).size :=
    Nat.lt_of_lt_of_eq (Nat.lt_succ_self _) (Array.size_push _).symm
  have hobjects (fields : Fields Value) :
      r.machine.heap.objects.size < (r.machine.heap.objects.push fields).size :=
    Nat.lt_of_lt_of_eq (Nat.lt_succ_self _) (Array.size_push _).symm
  cases hi with
  | other hno => exact absurd hbuilds hno
  | newArray hdst =>
    have hg := Heap.newArray_behind (h := r.machine.heap) (H := m.heap) (d := m.table.size) #[]
    rw [Array.map_empty] at hg
    exact follows_createCell hr hdst (c := .list r.machine.heap.lists.size) hg
      (hr.heap.pushList fun v hv => absurd hv (Array.not_mem_empty v))
      ⟨Nat.le_refl _, (hlists _).le, Nat.le_refl _, Nat.le_refl _, Nat.le_refl _, Nat.le_refl _⟩
      (Nat.lt_irrefl _) rfl (hlists _)
  | @newTuple dst n _ hdst =>
    have hg := Heap.newTuple_behind (h := r.machine.heap) (H := m.heap) (d := m.table.size)
      (Array.replicate n.toNat .unit)
    rw [Array.map_replicate] at hg
    refine follows_createCell hr hdst (c := .list r.machine.heap.lists.size) hg
      (hr.heap.pushList fun v hv => ?_)
      ⟨Nat.le_refl _, (hlists _).le, Nat.le_refl _, Nat.le_refl _, Nat.le_refl _, Nat.le_refl _⟩
      (Nat.lt_irrefl _) rfl (hlists _)
    obtain ⟨-, rfl⟩ := Array.mem_replicate.mp hv
    exact Value.settled_of_cell?_eq_none trivial rfl
  | newObject hdst =>
    exact follows_createCell hr hdst (c := .object r.machine.heap.objects.size) (Heap.newObject_behind [])
      (hr.heap.pushObject (List.forall_mem_nil _))
      ⟨Nat.le_refl _, Nat.le_refl _, (hobjects _).le, Nat.le_refl _, Nat.le_refl _, Nat.le_refl _⟩
      (Nat.lt_irrefl _) rfl (hobjects _)
  | @setArrayIndex array value k _ harray hvalue =>
    refine .read hclean fun target ht => ?_
    cases target with
    | array c =>
      exact .read hclean fun v hv => follows_setItem hr (owned_of_held hr harray ht rfl) (hr.settled hvalue hv) _
    | _ => exact .throw hclean id
  | @setTupleIndex tuple value k _ htuple hvalue =>
    refine .read hclean fun target ht => ?_
    cases target with
    | tuple c =>
      refine .read hclean fun v hv => ?_
      have hsize : ((r.machine.heap.behind m.heap m.table.size).list (c + m.extent.lists)).size =
          (r.machine.heap.list c).size := (congrArg Array.size (Heap.list_behind c)).trans Array.size_map
      show Follows m r
        (if k.toNat < (r.machine.heap.list c).size then onHeap fun h => ((), h.setItem c k.toNat v)
          else throw (.tupleIndexOutOfBounds k.toNat))
        (if k.toNat < ((r.machine.heap.behind m.heap m.table.size).list (c + m.extent.lists)).size then
            onHeap fun h => ((), h.setItem (c + m.extent.lists) k.toNat (v.move m.extent))
          else throw (.tupleIndexOutOfBounds k.toNat)) _ _
      rw [hsize]
      refine .ite (fun _ => ?_) fun _ => .throw hclean id
      exact follows_setItem hr (owned_of_held hr htuple ht rfl) (hr.settled hvalue hv) _
    | _ => exact .throw hclean id
  | @setField object value f _ hobject hvalue =>
    refine .read hclean fun target ht => ?_
    cases target with
    | object c =>
      refine .identifier hclean fun name => .read hclean fun v hv => ?_
      refine follows_fill hr (g := (·.setField c name v)) (Heap.setField_behind c name v)
        (hr.heap.setField (owned_of_held hr hobject ht rfl) (hr.settled hvalue hv) name) ⟨Nat.le_refl _,
          Nat.le_refl _, Nat.le_of_eq Array.size_modify.symm, Nat.le_refl _, Nat.le_refl _, Nat.le_refl _⟩
    | _ => exact .throw hclean id

/-! ## Frames -/

/-- A frame is opened. -/
theorem follows_pushFrame (hr : r.Kept owners S base D) :
    Follows m r pushFrame pushFrame id (Ends S base (D + 1)) := by
  have hrun : (pushFrame : Exec Unit) (r.behind m) =
      .ok () ((r.withTypes r.machine.frames.push r.machine.table).behind m) := by
    have h := Frames.push_behind hr.types.depth m.frames m.table.size
    exact congrArg (fun F => EStateM.Result.ok () ((r.behind m).withTypes F (r.behind m).machine.table)) h
  exact .of_ok rfl hrun ⟨owners, hr.withTypes hr.types.push (congrArg (· + 1) hr.depth) (Nat.le_refl _)⟩

/-- A frame is closed that is not the last one. -/
theorem follows_popFrame (hr : r.Kept owners S base (D + 1)) (hD : 0 < D) :
    Follows m r popFrame popFrame id (Ends S base D) := by
  have hdepth : 1 < r.machine.frames.depth := hr.depth ▸ Nat.succ_lt_succ hD
  obtain ⟨hsize, hpop, hgrounded⟩ := hr.types.pop hdepth
  have hrun : (popFrame : Exec Unit) (r.behind m) = .ok () ((popped r).behind m) := by
    have h := Frames.pop_behind hdepth m.frames (P := m.table.entries) fun id hid =>
      hr.types.level id (hr.types.waits id hid)
    exact congrArg (fun p => EStateM.Result.ok () ((r.behind m).withTypes p.2.1 p.2.2)) h
  refine .of_ok rfl hrun ⟨owners, hr.withTypes hgrounded ?_ hsize.ge⟩
  exact Nat.succ_injective (hpop.trans hr.depth)

/-- Other instructions leave all frames alone. -/
theorem frames_of_depths? {i : Instr} {d d' : Depths} (hpush : i ≠ .pushFrame) (hpop : i ≠ .popFrame)
    (hd : i.depths? d = some d') : d'.frames = d.frames := by
  obtain ⟨scopes, frames⟩ := d
  cases i <;> first | exact absurd rfl hpush | exact absurd rfl hpop | cases scopes <;> cases hd <;> rfl

/-- **An instruction that stays in the block.** At least as many frames are open as the depth says. -/
theorem follows_instr {i : Instr} {d d' : Depths} (hm : m.Clean) (hr : r.Kept owners S base D)
    (hD : base + d.frames ≤ D) (hi : i.Fills S S') (hd : i.depths? d = some d')
    (hpositive : r.top.environment ≠ 0) (hknown : r.top.environment < r.machine.heap.environments.size) :
    Follows m r (instr i) (instr i) id fun _ r' =>
      ∃ owners' D', base + d'.frames ≤ D' ∧ r'.Kept owners' S' base D' := by
  by_cases hpush : i = .pushFrame
  · subst hpush
    cases hi
    cases hd
    exact (follows_pushFrame hr).imp fun _ _ ⟨owners', h⟩ => ⟨owners', D + 1, Nat.succ_le_succ hD, h⟩
  by_cases hpop : i = .popFrame
  · subst hpop
    cases hi
    obtain ⟨scopes, _ | frames⟩ := d
    · cases hd
    · cases hd
      obtain ⟨D, rfl⟩ : ∃ D', D = D' + 1 := Nat.exists_eq_succ_of_ne_zero (Nat.ne_of_gt (Nat.lt_of_lt_of_le
        (Nat.add_pos_left hr.callers.pos _) hD))
      have hD := Nat.le_of_succ_le_succ hD
      exact (follows_popFrame hr (Nat.lt_of_lt_of_le (Nat.add_pos_left hr.callers.pos _) hD)).imp
        fun _ _ ⟨owners', h⟩ => ⟨owners', D, hD, h⟩
  rw [frames_of_depths? hpush hpop hd]
  have hends : Follows m r (instr i) (instr i) id (Ends S' base D) := by
    by_cases hbuilds : i.Builds
    · exact follows_builds hr hbuilds hi
    · cases hi with
      | other _ hregisters => exact follows_plain hm hr hbuilds hregisters hpush hpop hpositive hknown
      | _ => exact absurd trivial hbuilds
  exact hends.imp fun _ _ ⟨owners', h⟩ => ⟨owners', D, hD, h⟩

end Exec

end Reified
