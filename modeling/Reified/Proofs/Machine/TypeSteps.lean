import Reified.Proofs.Machine.Steps

/-!
# Steps that build types

What the instructions on types do when the registers that they read hold types.

## Main results

* `Context.readRange_run`, `Context.asTypes_run` — the parts of a type
* `Context.step_newNameType`, `Context.step_newArrayType`, … — the instructions one by one
-/

namespace Reified

namespace Register

theorem index_lt (r : Register) : r.index < 65536 := r.number.toNat_lt

theorem index_ofNat {n : Nat} (h : n ≤ 65535) : (ofNat n).index = n :=
  UInt16.toNat_ofNat_of_lt' (by simp only [UInt16.size]; omega)

theorem index_offset {r : Register} {n : Nat} (h : r.index + n ≤ 65535) :
    (r.offset n).index = r.index + n := by
  rw [offset, Nat.min_eq_left h, index_ofNat h]

theorem offset_zero (r : Register) : r.offset 0 = r := by
  have hr := r.index_lt
  rw [offset, Nat.add_zero, Nat.min_eq_left (by omega), ofNat, index, UInt16.ofNat_toNat]

theorem le_index_offset (r : Register) (k : Nat) : r.index ≤ (r.offset k).index := by
  have hr := r.index_lt
  show r.index ≤ (UInt16.ofNat (min (r.index + k) 65535)).toNat
  rw [UInt16.toNat_ofNat_of_lt' (by simp only [UInt16.size]; omega)]
  omega

theorem index_offset_le (r : Register) (k : Nat) : (r.offset k).index ≤ r.index + k := by
  show (UInt16.ofNat (min (r.index + k) 65535)).toNat ≤ _
  rw [UInt16.toNat_ofNat_of_lt' (by simp only [UInt16.size]; omega)]
  omega

end Register

namespace Context

variable {k : Context} {m : Machine} {e p q : Nat} {regs : Array Value}
  {dst r a b first result : Register} {i count : UInt32} {s t : Ty} {ts : List Ty} {name : String}

/-! ## Parts -/

theorem readFrom_run {n : Nat} {done : Array Value} {vs : List Value} (hn : vs.length = n)
    (hvs : ∀ (j : Nat) (hj : j < vs.length),
      regs[(first.offset (done.size + j)).index]? = some vs[j]) :
    Exec.readFrom first done n (k.run m e p regs) =
      .ok (done ++ vs.toArray) (k.run m e p regs) := by
  induction vs generalizing n done with
  | nil =>
    cases hn
    rw [List.length_nil, Exec.readFrom, Exec.pure_run, Array.append_empty]
  | cons v vs ih =>
    cases hn
    rw [List.length_cons, Exec.readFrom]
    have hv := hvs 0 (Nat.zero_lt_succ _)
    rw [Nat.add_zero, List.getElem_cons_zero] at hv
    rw [Exec.bind_ok (read_run hv), ih rfl fun j hj => ?_]
    · simp
    · have := hvs (j + 1) (Nat.succ_lt_succ hj)
      rw [Array.size_push, Nat.add_right_comm]
      exact this

/-- A run of registers is read at once. -/
theorem readRange_run {vs : List Value} (hn : vs.length = count.toNat)
    (hvs : ∀ (j : Nat) (hj : j < vs.length), regs[(first.offset j).index]? = some vs[j]) :
    Exec.readRange first count (k.run m e p regs) = .ok vs.toArray (k.run m e p regs) := by
  rw [Exec.readRange, readFrom_run hn fun j hj => ?_]
  · rw [Array.empty_append]
  · rw [Array.size_empty, Nat.zero_add]
    exact hvs j hj

theorem asTypes_run (done ts : List Ty) :
    Exec.asTypes done (ts.map Value.type) (k.run m e p regs) =
      .ok (done.reverse ++ ts) (k.run m e p regs) := by
  induction ts generalizing done with
  | nil =>
    rw [List.map_nil, Exec.asTypes, List.append_nil]
    rfl
  | cons t ts ih =>
    rw [List.map_cons, Exec.asTypes]
    show (Exec.asTypes (t :: done) (ts.map Value.type)) (k.run m e p regs) = _
    rw [ih, List.reverse_cons, List.append_assoc, List.singleton_append]

theorem recordFields_run (fields : Fields Ty) (fs : List (String × Ty)) :
    Exec.recordFields fields (fs.map fun f => .string f.1) (fs.map Prod.snd)
        (k.run m e p regs) =
      .ok (fs.foldl (fun fields f => Fields.insert f.1 f.2 fields) fields)
        (k.run m e p regs) := by
  induction fs generalizing fields with
  | nil => rfl
  | cons f fs ih => exact ih _

/-! ## Instructions -/

theorem step_newNameType (hc : k.block.code[p]? = some (.newNameType dst i))
    (hi : k.block.identifier? i = some name) (hd : dst.index < regs.size) :
    Exec.step (k.run m e p regs) =
      .ok none (k.run m e (p + 1) (regs.setIfInBounds dst.index (.type (.name name)))) := by
  refine step_instr hc trivial ?_
  rw [Exec.instr, Exec.bind_ok (identifier_run hi), write_run hd]

theorem step_newArrayType (hc : k.block.code[p]? = some (.newArrayType dst r))
    (hr : regs[r.index]? = some (.type t)) (hd : dst.index < regs.size) :
    Exec.step (k.run m e p regs) =
      .ok none (k.run m e (p + 1) (regs.setIfInBounds dst.index (.type (.array t)))) := by
  refine step_instr hc trivial ?_
  rw [Exec.instr, Exec.bind_ok (read_run hr)]
  exact write_run hd

theorem step_newTupleType (hc : k.block.code[p]? = some (.newTupleType dst count first))
    (hn : ts.length = count.toNat)
    (hts : ∀ (j : Nat) (hj : j < ts.length),
      regs[(first.offset j).index]? = some (.type ts[j]))
    (hd : dst.index < regs.size) :
    Exec.step (k.run m e p regs) =
      .ok none (k.run m e (p + 1) (regs.setIfInBounds dst.index (.type (.tuple ts)))) := by
  refine step_instr hc trivial ?_
  have hread : Exec.readRange first count (k.run m e (p + 1) regs) =
      .ok (ts.map Value.type).toArray (k.run m e (p + 1) regs) := by
    refine readRange_run (by rw [List.length_map, hn]) fun j hj => ?_
    rw [List.getElem_map]
    exact hts j (by rwa [List.length_map] at hj)
  rw [Exec.instr, Exec.bind_ok hread, Exec.bind_ok (asTypes_run [] ts)]
  exact write_run hd

theorem step_newRecordType {firstKey firstType : Register} {fs : List (String × Ty)}
    (hc : k.block.code[p]? = some (.newRecordType dst count firstKey firstType))
    (hn : fs.length = count.toNat)
    (hkeys : ∀ (j : Nat) (hj : j < fs.length),
      regs[(firstKey.offset j).index]? = some (.string fs[j].1))
    (htypes : ∀ (j : Nat) (hj : j < fs.length),
      regs[(firstType.offset j).index]? = some (.type fs[j].2))
    (hd : dst.index < regs.size) :
    Exec.step (k.run m e p regs) =
      .ok none (k.run m e (p + 1)
        (regs.setIfInBounds dst.index (.type (.record (Fields.ofList fs))))) := by
  refine step_instr hc trivial ?_
  have hread : Exec.readRange firstKey count (k.run m e (p + 1) regs) =
      .ok (fs.map fun f => .string f.1).toArray (k.run m e (p + 1) regs) := by
    refine readRange_run (by rw [List.length_map, hn]) fun j hj => ?_
    rw [List.getElem_map]
    exact hkeys j (by rwa [List.length_map] at hj)
  have hread' : Exec.readRange firstType count (k.run m e (p + 1) regs) =
      .ok ((fs.map Prod.snd).map Value.type).toArray (k.run m e (p + 1) regs) := by
    refine readRange_run (by rw [List.length_map, List.length_map, hn]) fun j hj => ?_
    rw [List.getElem_map, List.getElem_map]
    exact htypes j (by rwa [List.length_map, List.length_map] at hj)
  rw [Exec.instr, Exec.bind_ok hread, Exec.bind_ok hread']
  dsimp only
  rw [Exec.bind_ok (asTypes_run [] _), List.reverse_nil, List.nil_append,
    Exec.bind_ok (recordFields_run [] fs)]
  exact write_run hd

theorem step_newFunctionType {implicit : UInt32}
    (hc : k.block.code[p]? = some (.newFunctionType dst count first result implicit))
    (hn : ts.length = count.toNat)
    (hts : ∀ (j : Nat) (hj : j < ts.length),
      regs[(first.offset j).index]? = some (.type ts[j]))
    (hr : regs[result.index]? = some (.type t)) (hd : dst.index < regs.size) :
    Exec.step (k.run m e p regs) =
      .ok none (k.run m e (p + 1)
        (regs.setIfInBounds dst.index (.type (.fn ts t implicit.toNat)))) := by
  refine step_instr hc trivial ?_
  have hread : Exec.readRange first count (k.run m e (p + 1) regs) =
      .ok (ts.map Value.type).toArray (k.run m e (p + 1) regs) := by
    refine readRange_run (by rw [List.length_map, hn]) fun j hj => ?_
    rw [List.getElem_map]
    exact hts j (by rwa [List.length_map] at hj)
  rw [Exec.instr, Exec.bind_ok hread, Exec.bind_ok (asTypes_run [] ts),
    Exec.bind_ok (read_run hr)]
  exact write_run hd

theorem step_newUnionType (hc : k.block.code[p]? = some (.newUnionType dst a b))
    (ha : regs[a.index]? = some (.type s)) (hb : regs[b.index]? = some (.type t))
    (hd : dst.index < regs.size) :
    Exec.step (k.run m e p regs) =
      .ok none (k.run m e (p + 1) (regs.setIfInBounds dst.index (.type (.union s t)))) := by
  refine step_instr hc trivial ?_
  rw [Exec.instr, Exec.bind_ok (read_run ha)]
  show (Exec.read b >>= _) _ = _
  rw [Exec.bind_ok (read_run hb)]
  exact write_run hd

theorem step_newBindingType (hc : k.block.code[p]? = some (.newBindingType dst i r))
    (hi : k.block.identifier? i = some name) (hr : regs[r.index]? = some (.type t))
    (hd : dst.index < regs.size) :
    Exec.step (k.run m e p regs) =
      .ok none (k.run m e (p + 1) (regs.setIfInBounds dst.index (.type (.binding name t)))) := by
  refine step_instr hc trivial ?_
  rw [Exec.instr, Exec.bind_ok (identifier_run hi), Exec.bind_ok (read_run hr)]
  exact write_run hd

theorem step_newVarType {inferred rigid : Bool}
    (hc : k.block.code[p]? = some (.newVarType dst i inferred rigid))
    (hi : k.block.identifier? i = some name) (hd : dst.index < regs.size) :
    Exec.step (k.run m e p regs) =
      .ok none (k.run { m with
          table := (m.frames.newVar m.table name inferred rigid).2.2
          frames := (m.frames.newVar m.table name inferred rigid).2.1 } e (p + 1)
        (regs.setIfInBounds dst.index
          (.type (m.frames.newVar m.table name inferred rigid).1))) := by
  refine step_instr hc trivial ?_
  rw [Exec.instr, Exec.bind_ok (identifier_run hi)]
  exact write_run hd

theorem step_resolveType (hc : k.block.code[p]? = some (.resolveType dst r))
    (hr : regs[r.index]? = some (.type t)) (hd : dst.index < regs.size) :
    Exec.step (k.run m e p regs) =
      .ok none (k.run { m with table := (m.table.resolveDeep t).2 } e (p + 1)
        (regs.setIfInBounds dst.index (.type (m.table.resolveDeep t).1))) := by
  refine step_instr hc trivial ?_
  rw [Exec.instr, Exec.bind_ok (read_run hr)]
  exact write_run hd

end Context

end Reified
