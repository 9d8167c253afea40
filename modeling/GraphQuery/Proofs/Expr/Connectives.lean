import GraphQuery.Expr.Eval
import GraphQuery.Proofs.Fallible

/-!
# Connectives in three-valued logic

A connective goes through its operands with a note of the nulls and of the parity of the true
ones. What it comes to is the join of the truth values of its operands, taken one after the other
until one of them settles it. The join of truth values is associative and commutative, and
negation exchanges the one of `and` for the one of `or`. So a connective nested in the same
connective may be spelled out, operands that all have a truth value may change places, and the
laws of De Morgan hold, errors included.

## Main definitions

* `Truth`: a truth value that may be unknown.
* `LogicalOp.join`: a connective of two truth values.
* `LogicalOp.joinAll`: a connective of outcomes, no further than to the one that settles it.
* `LogicalOp.dual`: the connective of the negations.

## Main results

* `LogicalOp.connect_eq`: the loop of a connective is the join of its operands.
* `LogicalOp.joinAll_append`: the join of two lists of outcomes.
* `Expr.eval_regroup`: grouping and the order of operands do not matter.
* `Expr.eval_deMorgan`: a negated connective is the dual connective of the negations.
-/

namespace GraphQuery

/-! ### Truth values -/

/-- A truth value that may be unknown. -/
abbrev Truth := Option Bool

/-- A truth value as a value; the unknown one is null. -/
def Value.ofTruth : Truth → Value
  | none => .null
  | some b => .bool b

/-- An outcome is a truth value, an error, or a value that is no truth value. -/
theorem outcome_cases (o : Outcome) :
    (∃ t, o = .ok (.ofTruth t)) ∨ (∃ err, o = .error err) ∨
      ∃ v, o = .ok v ∧ v.type ≠ .null ∧ v.type ≠ .bool := by
  cases o with
  | error err => exact .inr (.inl ⟨err, rfl⟩)
  | ok v =>
    cases v with
    | null => exact .inl ⟨none, rfl⟩
    | bool b => exact .inl ⟨some b, rfl⟩
    | _ => exact .inr (.inr ⟨_, rfl, by simp [Value.type], by simp [Value.type]⟩)

/-- The truth value of an outcome; where it has none, it is unknown. -/
def knownTruth : Outcome → Truth
  | .ok (.bool b) => some b
  | _ => none

/-- The outcome of a negation. -/
def negated (o : Outcome) : Outcome := o >>= UnaryOp.not.apply

theorem negated_ofTruth (t : Truth) : negated (.ok (.ofTruth t)) = .ok (.ofTruth (t.map (!·))) := by
  cases t <;> rfl

/-- A value that is no truth value cannot be negated. -/
theorem negated_of_type {v : Value} (hnull : v.type ≠ .null) (hbool : v.type ≠ .bool) :
    negated (.ok v) = .error (.invalidOperands (.unary .not) v.type none) := by
  cases v with
  | null => exact absurd rfl hnull
  | bool => exact absurd rfl hbool
  | _ => rfl

namespace LogicalOp

/-! ### Joined truth values -/

/-- Whether a truth value decides a connective, whatever the other operands are. -/
def settledBy (op : LogicalOp) : Truth → Bool
  | none => false
  | some b => op.decides b

/-- A connective of two truth values. -/
def join (op : LogicalOp) : Truth → Truth → Truth
  | some a, some b =>
    match op with
    | .and => some (a && b)
    | .or => some (a || b)
    | .xor => some (a != b)
  | none, some b | some b, none => if op.decides b then some b else none
  | none, none => none

/-- The truth value of no operands. -/
def unit (op : LogicalOp) : Truth := some (op.verdict false)

theorem join_comm (op : LogicalOp) (s t : Truth) : op.join s t = op.join t s := by
  cases op <;> rcases s with _ | _ | _ <;> rcases t with _ | _ | _ <;> rfl

theorem join_assoc (op : LogicalOp) (s t u : Truth) :
    op.join (op.join s t) u = op.join s (op.join t u) := by
  cases op <;> rcases s with _ | _ | _ <;> rcases t with _ | _ | _ <;>
    rcases u with _ | _ | _ <;> rfl

theorem unit_join (op : LogicalOp) (t : Truth) : op.join op.unit t = t := by
  cases op <;> rcases t with _ | _ | _ <;> rfl

theorem settledBy_unit (op : LogicalOp) : op.settledBy op.unit = false := by
  cases op <;> rfl

theorem join_of_settledBy {op : LogicalOp} {s : Truth} (h : op.settledBy s = true) (t : Truth) :
    op.join s t = s := by
  revert h
  cases op <;> rcases s with _ | _ | _ <;> rcases t with _ | _ | _ <;> decide

/-- A join settles a connective only if one of the two does. -/
theorem settledBy_join (op : LogicalOp) (s t : Truth) :
    op.settledBy (op.join s t) = (op.settledBy s || op.settledBy t) := by
  cases op <;> rcases s with _ | _ | _ <;> rcases t with _ | _ | _ <;> rfl

/-! ### Joined outcomes -/

/-- The truth value that an outcome has as an operand. -/
def truthOf (op : LogicalOp) : Outcome → Except EvalError Truth
  | .error err => .error err
  | .ok .null => .ok none
  | .ok (.bool b) => .ok (some b)
  | .ok v => .error (.invalidOperands (.logical op) v.type none)

theorem truthOf_ofTruth (op : LogicalOp) (t : Truth) : op.truthOf (.ok (.ofTruth t)) = .ok t := by
  cases t <;> rfl

/-- As an operand, a truth value that is computed is that truth value. -/
theorem truthOf_map_ofTruth (op : LogicalOp) (x : Except EvalError Truth) :
    op.truthOf (Value.ofTruth <$> x) = x := by
  cases x with
  | error err => rfl
  | ok t => exact op.truthOf_ofTruth t

theorem truthOf_of_type {op : LogicalOp} {v : Value} (hnull : v.type ≠ .null)
    (hbool : v.type ≠ .bool) :
    op.truthOf (.ok v) = .error (.invalidOperands (.logical op) v.type none) := by
  cases v with
  | null => exact absurd rfl hnull
  | bool => exact absurd rfl hbool
  | _ => rfl

/-- The join of the truth values of outcomes, no further than to the first one that settles the
connective or is in error. -/
def joinAll (op : LogicalOp) : List Outcome → Except EvalError Truth
  | [] => return op.unit
  | o :: os => do
    let first ← op.truthOf o
    if op.settledBy first then return first else return op.join first (← op.joinAll os)

/-- The truth value that a connective has noted on its way. -/
def noted (op : LogicalOp) (sawNull parity : Bool) : Truth :=
  if sawNull then none else some (op.verdict parity)

theorem noted_join {op : LogicalOp} {t : Truth} (h : op.settledBy t = false)
    (sawNull parity : Bool) :
    op.join (op.noted sawNull parity) t =
      op.noted (sawNull || t.isNone) (parity != t.getD false) := by
  revert h
  cases op <;> cases sawNull <;> cases parity <;> rcases t with _ | _ | _ <;> decide

theorem connectFrom_cons (op : LogicalOp) (sawNull parity : Bool) (operand : Thunk Outcome)
    (rest : List (Thunk Outcome)) :
    op.connectFrom sawNull parity (operand :: rest) = (do
      let t ← op.truthOf operand.get
      if op.settledBy t then return .ofTruth t
      else op.connectFrom (sawNull || t.isNone) (parity != t.getD false) rest) := by
  rw [connectFrom]
  rcases operand.get with err | v
  · rfl
  · cases v with
    | null => cases sawNull <;> cases parity <;> rfl
    | bool b => cases sawNull <;> rfl
    | _ => rfl

/-- The loop of a connective joins its operands to what it has noted before. -/
theorem connectFrom_eq (op : LogicalOp) (sawNull parity : Bool) (operands : List (Thunk Outcome)) :
    op.connectFrom sawNull parity operands =
      (fun t => Value.ofTruth (op.join (op.noted sawNull parity) t)) <$>
        op.joinAll (operands.map Thunk.get) := by
  induction operands generalizing sawNull parity with
  | nil =>
      rw [connectFrom, List.map_nil, joinAll, map_pure, join_comm, unit_join]
      cases sawNull <;> rfl
  | cons operand rest ih =>
      rw [connectFrom_cons, List.map_cons, joinAll, map_bind]
      refine bind_congr fun t => ?_
      cases ht : op.settledBy t with
      | true =>
          have hjoin : op.join (op.noted sawNull parity) t = t := by
            rw [join_comm, join_of_settledBy ht]
          simp [hjoin]
      | false => simp [ih, ← noted_join ht, join_assoc]

/-- A connective is the join of its operands. -/
theorem connect_eq (op : LogicalOp) (operands : List (Thunk Outcome)) :
    op.connect operands = Value.ofTruth <$> op.joinAll (operands.map Thunk.get) := by
  have hnoted : op.noted false false = op.unit := rfl
  simp only [connect, connectFrom_eq, hnoted, unit_join]

/-! ### Laws of the join of outcomes -/

variable {op : LogicalOp}

/-- The join of two lists of outcomes is the join of the first one and, unless that settles the
connective, of the second one. -/
theorem joinAll_append (op : LogicalOp) (front back : List Outcome) :
    op.joinAll (front ++ back) = (do
      let first ← op.joinAll front
      if op.settledBy first then return first else return op.join first (← op.joinAll back)) := by
  induction front with
  | nil =>
      have hid : op.join op.unit = id := funext op.unit_join
      simp [joinAll, settledBy_unit, hid]
  | cons o os ih =>
      simp only [List.cons_append, joinAll, ih, bind_assoc]
      refine bind_congr fun t => ?_
      cases ht : op.settledBy t with
      | true => simp [ht]
      | false =>
          simp only [Bool.false_eq_true, if_false, bind_assoc, pure_bind, settledBy_join, ht,
            Bool.false_or]
          refine bind_congr fun u => ?_
          cases hu : op.settledBy u with
          | true => simp
          | false => simp [join_assoc]

/-- An outcome that is the join of others may be spelled out. -/
theorem joinAll_ofTruth_cons (op : LogicalOp) (inner back : List Outcome) :
    op.joinAll ((Value.ofTruth <$> op.joinAll inner) :: back) = op.joinAll (inner ++ back) := by
  rw [joinAll, truthOf_map_ofTruth, joinAll_append]

/-- Operands that all have a truth value are joined one after the other. -/
theorem joinAll_of_truths {os : List Outcome} (h : ∀ o ∈ os, ∃ t, o = .ok (.ofTruth t)) :
    op.joinAll os = .ok ((os.map knownTruth).foldr op.join op.unit) := by
  induction os with
  | nil => rfl
  | cons o os ih =>
      obtain ⟨⟨t, rfl⟩, hos⟩ := List.forall_mem_cons.1 h
      have hknown : knownTruth (.ok (.ofTruth t)) = t := by cases t <;> rfl
      rw [joinAll, truthOf_ofTruth, ih hos, List.map_cons, hknown, List.foldr_cons]
      cases ht : op.settledBy t with
      | true =>
          rw [join_of_settledBy ht]
          exact if_pos ht
      | false => exact if_neg (Bool.eq_false_iff.1 ht)

/-- Operands that all have a truth value may change places. -/
theorem joinAll_perm {os os' : List Outcome} (hperm : os.Perm os')
    (h : ∀ o ∈ os, ∃ t, o = .ok (.ofTruth t)) : op.joinAll os = op.joinAll os' := by
  have h' : ∀ o ∈ os', ∃ t, o = .ok (.ofTruth t) := fun o ho => h o (hperm.mem_iff.2 ho)
  have hfold : (os.map knownTruth).foldr op.join op.unit =
      (os'.map knownTruth).foldr op.join op.unit := by
    refine (hperm.map knownTruth).foldr_eq' (fun s _ t _ u => ?_) op.unit
    rw [← join_assoc, op.join_comm t s, join_assoc]
  rw [joinAll_of_truths h, joinAll_of_truths h', hfold]

/-! ### The first error -/

/-- A connective goes on from an operand to the next one. -/
def LeftOpenBy (op : LogicalOp) (o : Outcome) : Prop :=
  ∃ t, o = .ok (.ofTruth t) ∧ op.settledBy t = false

theorem truthOf_eq_ok {o : Outcome} {t : Truth} :
    op.truthOf o = .ok t ↔ o = .ok (.ofTruth t) := by
  constructor
  · intro h
    rcases outcome_cases o with ⟨s, rfl⟩ | ⟨err, rfl⟩ | ⟨v, rfl, hnull, hbool⟩
    · rw [truthOf_ofTruth] at h
      rw [Except.ok.inj h]
    · cases h
    · rw [truthOf_of_type hnull hbool] at h
      cases h
  · rintro rfl
    exact op.truthOf_ofTruth t

/-- An operand is in error if it fails itself or has a value that is no truth value. -/
theorem truthOf_eq_error {o : Outcome} {err : EvalError} :
    op.truthOf o = .error err ↔ o = .error err ∨ ∃ v, o = .ok v ∧ v.type ≠ .null ∧
      v.type ≠ .bool ∧ err = .invalidOperands (.logical op) v.type none := by
  constructor
  · intro h
    rcases outcome_cases o with ⟨t, rfl⟩ | ⟨err', rfl⟩ | ⟨v, rfl, hnull, hbool⟩
    · rw [truthOf_ofTruth] at h
      cases h
    · obtain rfl := Except.error.inj h
      exact .inl rfl
    · rw [truthOf_of_type hnull hbool] at h
      exact .inr ⟨v, rfl, hnull, hbool, (Except.error.inj h).symm⟩
  · rintro (rfl | ⟨v, rfl, hnull, hbool, rfl⟩)
    · rfl
    · exact truthOf_of_type hnull hbool

/-- A connective fails at the first operand that is in error, if none before it settles it. -/
theorem joinAll_of_first_error {before : List Outcome} {o : Outcome} {err : EvalError}
    (h : ∀ o' ∈ before, op.LeftOpenBy o') (herr : op.truthOf o = .error err)
    (after : List Outcome) : op.joinAll (before ++ o :: after) = .error err := by
  induction before with
  | nil =>
      rw [List.nil_append, joinAll, herr]
      rfl
  | cons first before ih =>
      obtain ⟨⟨t, rfl, ht⟩, hbefore⟩ := List.forall_mem_cons.1 h
      rw [List.cons_append, joinAll, truthOf_ofTruth, ih hbefore]
      simp [ht]

/-- Either a connective has a truth value or there is a first operand at which it fails. -/
theorem joinAll_ok_or_first_error (op : LogicalOp) (os : List Outcome) :
    (∃ t, op.joinAll os = .ok t) ∨ ∃ before o after err, os = before ++ o :: after ∧
      (∀ o' ∈ before, op.LeftOpenBy o') ∧ op.truthOf o = .error err := by
  induction os with
  | nil => exact .inl ⟨_, rfl⟩
  | cons o os ih =>
      cases ho : op.truthOf o with
      | error err => exact .inr ⟨[], o, os, err, rfl, by simp, ho⟩
      | ok t =>
        cases ht : op.settledBy t with
        | true => exact .inl ⟨t, by simp [joinAll, ho, ht]⟩
        | false =>
            rcases ih with ⟨u, hu⟩ | ⟨before, failing, after, err, rfl, hbefore, hfailing⟩
            · exact .inl ⟨op.join t u, by simp [joinAll, ho, ht, hu]⟩
            · exact .inr ⟨o :: before, failing, after, err, rfl,
                List.forall_mem_cons.2 ⟨⟨t, truthOf_eq_ok.1 ho, ht⟩, hbefore⟩, hfailing⟩

/-! ### Negation -/

/-- The connective that negation makes of a connective. -/
def dual : LogicalOp → LogicalOp
  | .and => .or
  | .or => .and
  | .xor => .xor

theorem settledBy_dual (op : LogicalOp) (t : Truth) :
    op.dual.settledBy (t.map (!·)) = op.settledBy t := by
  cases op <;> rcases t with _ | _ | _ <;> rfl

theorem join_dual {op : LogicalOp} (hop : op ≠ .xor) (s t : Truth) :
    op.dual.join (s.map (!·)) (t.map (!·)) = (op.join s t).map (!·) := by
  revert hop
  cases op <;> rcases s with _ | _ | _ <;> rcases t with _ | _ | _ <;> decide

theorem unit_dual {op : LogicalOp} (hop : op ≠ .xor) : op.dual.unit = op.unit.map (!·) := by
  revert hop
  cases op <;> decide

theorem leftOpenBy_negated {o : Outcome} (h : op.LeftOpenBy o) :
    op.dual.LeftOpenBy (negated o) := by
  obtain ⟨t, rfl, ht⟩ := h
  exact ⟨t.map (!·), negated_ofTruth t, by rw [settledBy_dual, ht]⟩

/-- Where a connective has a truth value, the dual connective of the negations has the negated
one. -/
theorem joinAll_dual (hop : op ≠ .xor) {os : List Outcome} {t : Truth}
    (h : op.joinAll os = .ok t) : op.dual.joinAll (os.map negated) = .ok (t.map (!·)) := by
  induction os generalizing t with
  | nil =>
      obtain rfl := Except.ok.inj h
      exact congrArg Except.ok (unit_dual hop)
  | cons o os ih =>
      rw [joinAll, bind_eq_ok] at h
      obtain ⟨s, hs, h⟩ := h
      obtain rfl := truthOf_eq_ok.1 hs
      rw [List.map_cons, joinAll, negated_ofTruth, truthOf_ofTruth]
      cases hsettled : op.settledBy s with
      | true =>
          rw [hsettled] at h
          obtain rfl := Except.ok.inj h
          simp [settledBy_dual, hsettled]
      | false =>
          rw [hsettled] at h
          obtain ⟨u, hu, rfl⟩ := map_eq_ok.1 ((bind_pure_comp _ _).symm.trans h)
          simp [settledBy_dual, hsettled, ih hu, join_dual hop]

/-- Where a connective fails at a first operand, the dual connective of the negations fails at the
negation of this operand. -/
theorem joinAll_dual_of_first_error {before : List Outcome} {o : Outcome} {err : EvalError}
    (h : ∀ o' ∈ before, op.LeftOpenBy o') (herr : negated o = .error err) (after : List Outcome) :
    op.dual.joinAll ((before ++ o :: after).map negated) = .error err := by
  have hbefore : ∀ o' ∈ before.map negated, op.dual.LeftOpenBy o' := by
    intro o' ho'
    obtain ⟨o, ho, rfl⟩ := List.mem_map.1 ho'
    exact leftOpenBy_negated (h o ho)
  rw [List.map_append, List.map_cons, herr]
  exact joinAll_of_first_error hbefore rfl _

end LogicalOp

namespace Expr

variable {op : LogicalOp} {lookup : Lookup}

theorem map_get_delayEach (es : List Expr) (lookup : Lookup) :
    (delayEach es lookup).map Thunk.get = es.map fun e => e.eval lookup := by
  induction es with
  | nil => rfl
  | cons e es ih =>
      rw [delayEach, List.map_cons, ih]
      rfl

/-- The value of a connective is the join of the outcomes of its operands. -/
theorem eval_logical (op : LogicalOp) (es : List Expr) (lookup : Lookup) :
    (logical op es).eval lookup =
      Value.ofTruth <$> op.joinAll (es.map fun e => e.eval lookup) := by
  rw [eval, LogicalOp.connect_eq, map_get_delayEach]

/-- A connective that is an operand of the same connective may be spelled out, whatever the
operands come to; and operands that all come to truth values or null may change places. -/
theorem eval_regroup (op : LogicalOp) (lookup : Lookup) :
    (∀ xs ys zs : List Expr, (logical op (xs ++ logical op ys :: zs)).eval lookup =
        (logical op (xs ++ ys ++ zs)).eval lookup) ∧
      ∀ es es' : List Expr, es.Perm es' →
        (∀ e ∈ es, e.eval lookup = .ok .null ∨ ∃ b, e.eval lookup = .ok (.bool b)) →
        (logical op es).eval lookup = (logical op es').eval lookup := by
  constructor
  · intro xs ys zs
    rw [eval_logical, eval_logical, List.map_append, List.map_cons, eval_logical op ys,
      LogicalOp.joinAll_append, LogicalOp.joinAll_ofTruth_cons, ← LogicalOp.joinAll_append,
      List.append_assoc, List.map_append, List.map_append]
  · intro es es' hperm h
    have htruths : ∀ o ∈ es.map (fun e => e.eval lookup), ∃ t, o = .ok (.ofTruth t) := by
      intro o ho
      obtain ⟨e, he, rfl⟩ := List.mem_map.1 ho
      rcases h e he with hnull | ⟨b, hb⟩
      · exact ⟨none, hnull⟩
      · exact ⟨some b, hb⟩
    rw [eval_logical, eval_logical, LogicalOp.joinAll_perm (hperm.map _) htruths]

/-- Nulls and a deciding operand give the same value in any order. -/
theorem eval_regroup_null :
    [constant .null, constant (.bool false)].Perm [constant (.bool false), constant .null] ∧
      (∀ e ∈ [constant .null, constant (.bool false)], e.eval (fun _ => none) = .ok .null ∨
        ∃ b, e.eval (fun _ => none) = .ok (.bool b)) ∧
      (logical .and [constant .null, constant (.bool false)]).eval (fun _ => none) =
        .ok (.bool false) := by
  have hperm : [constant .null, constant (.bool false)].Perm
      [constant (.bool false), constant .null] := .swap _ _ _
  have htruths : ∀ e ∈ [constant .null, constant (.bool false)],
      e.eval (fun _ => none) = .ok .null ∨ ∃ b, e.eval (fun _ => none) = .ok (.bool b) := by
    intro e he
    rcases List.mem_cons.1 he with rfl | he
    · exact .inl rfl
    · obtain rfl := List.mem_singleton.1 he
      exact .inr ⟨false, rfl⟩
  exact ⟨hperm, htruths, ((eval_regroup .and _).2 _ _ hperm htruths).trans rfl⟩

/-- The negation of a conjunction and the disjunction of the negations have the same truth value,
or both fail at the same operand, the first one that does not leave the conjunction open. They
fail with the error of this operand, or each of them reports for its own operator that it does not
take the type of the operand's value. The same holds of the negation of a disjunction. -/
theorem eval_deMorgan (hop : op ≠ .xor) (es : List Expr) (lookup : Lookup) :
    let negation := (unary .not (logical op es)).eval lookup
    let ofNegations := (logical op.dual (es.map (unary .not))).eval lookup
    (∃ t, negation = .ok (.ofTruth t) ∧ ofNegations = .ok (.ofTruth t)) ∨
      ∃ before e after, es = before ++ e :: after ∧
        (∀ e' ∈ before, ∃ t, e'.eval lookup = .ok (.ofTruth t) ∧ op.settledBy t = false) ∧
        ((∃ err, e.eval lookup = .error err ∧ negation = .error err ∧ ofNegations = .error err) ∨
          ∃ v, e.eval lookup = .ok v ∧ v.type ≠ .null ∧ v.type ≠ .bool ∧
            negation = .error (.invalidOperands (.logical op) v.type none) ∧
            ofNegations = .error (.invalidOperands (.unary .not) v.type none)) := by
  intro negation ofNegations
  have hnegation : negation =
      negated (Value.ofTruth <$> op.joinAll (es.map fun e => e.eval lookup)) := by
    rw [← eval_logical]
    rfl
  have hofNegations : ofNegations =
      Value.ofTruth <$> op.dual.joinAll ((es.map fun e => e.eval lookup).map negated) := by
    rw [List.map_map]
    exact (eval_logical _ _ _).trans (by rw [List.map_map]; rfl)
  rcases op.joinAll_ok_or_first_error (es.map fun e => e.eval lookup) with
    ⟨t, ht⟩ | ⟨before, o, after, err, hes, hbefore, herr⟩
  · refine .inl ⟨t.map (!·), ?_, ?_⟩
    · rw [hnegation, ht]
      exact negated_ofTruth t
    · rw [hofNegations, LogicalOp.joinAll_dual hop ht]
      rfl
  · rw [hes, LogicalOp.joinAll_of_first_error hbefore herr] at hnegation
    rw [hes] at hofNegations
    obtain ⟨front, tail, rfl, rfl, htail⟩ := List.map_eq_append_iff.1 hes
    obtain ⟨e, back, rfl, rfl, rfl⟩ := List.map_eq_cons_iff.1 htail
    refine .inr ⟨front, e, back, rfl, fun e' he' => hbefore _ (List.mem_map_of_mem he'), ?_⟩
    rcases LogicalOp.truthOf_eq_error.1 herr with hfails | ⟨v, hv, hnull, hbool, rfl⟩
    · have hnegated : negated (e.eval lookup) = .error err := by
        rw [hfails]
        rfl
      rw [LogicalOp.joinAll_dual_of_first_error hbefore hnegated] at hofNegations
      exact .inl ⟨err, hfails, hnegation, hofNegations⟩
    · have hnegated : negated (e.eval lookup) = _ :=
        (congrArg negated hv).trans (negated_of_type hnull hbool)
      rw [LogicalOp.joinAll_dual_of_first_error hbefore hnegated] at hofNegations
      exact .inr ⟨v, hv, hnull, hbool, hnegation, hofNegations⟩

/-- An operand that is no truth value, after a null that leaves the conjunction open and before an
operand that would decide it. -/
theorem eval_deMorgan_int :
    LogicalOp.and ≠ .xor ∧
      (unary .not (logical .and [constant .null, constant (.int 1), constant (.bool false)])).eval
          (fun _ => none) = .error (.invalidOperands (.logical .and) .int none) ∧
      (logical .or [unary .not (constant .null), unary .not (constant (.int 1)),
          unary .not (constant (.bool false))]).eval (fun _ => none) =
        .error (.invalidOperands (.unary .not) .int none) := by
  have hop : LogicalOp.and ≠ .xor := by decide
  refine ⟨hop, rfl, ?_⟩
  rcases eval_deMorgan hop [constant .null, constant (.int 1), constant (.bool false)]
    (fun _ => none) with ⟨t, ht, -⟩ | ⟨before, e, after, hes, -, h⟩
  · cases ht
  rcases h with ⟨err, herr, -, -⟩ | ⟨v, -, -, -, hnegation, hofNegations⟩
  · -- none of the operands is in error
    have hmem : e ∈ [constant .null, constant (.int 1), constant (.bool false)] := by simp [hes]
    simp only [List.mem_cons, List.not_mem_nil, or_false] at hmem
    rcases hmem with rfl | rfl | rfl <;> cases herr
  · have htype : ValueType.int = v.type :=
      (EvalError.invalidOperands.inj (Except.error.inj hnegation)).2.1
    rw [htype]
    exact hofNegations

end Expr

end GraphQuery
