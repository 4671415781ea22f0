import Dolang.Runtime.OperatorLaws

/-!
# Where literals stand for their numbers

When an expression gives the same with an integer literal as with the plain integer of its value. With a
primitive value or an integer on the other side it always does but for shifts by a literal, which
shift the literal instead. The other differences are between a plain integer in a word, where only the
other operand's handler is asked, and any object: a float knows no operators on bits, and an object may
answer otherwise than what it converts to.
-/

namespace Dolang.Runtime.Operator

section

variable {O : Type} (F : Floats) (objects : Objects O) (same : O → O → Bool)

/-- The literal. -/
def literal (v : Integer) (text : String) : Value O :=
  .object (.verbatimInt v text)

/-- When a literal on the left does as its number does. -/
def LeftCondition (op : Op) (v : Integer) (text : String) : Value O → Prop
  | .prim _ | .object (.int _) => True
  | .object (.verbatimInt n _) => packs v → op.isShift →
      op.prim F (.int v) (.int n) = op.prim F (.int n) (.int v)
  | .object (.f64 _) | .object (.verbatimF64 _ _) => packs v → op.isBits = false
  | .object (.other o) =>
    if op = .gt ∨ op = .gte then
      Same (settle (objects.handle o op.handler (literal v text)))
        (settle (objects.handle o op.handler (.fromInt v)))
    else packs v → Same (binop objects (.int v) (.object (.other o)) (op.prim F))
      (settle (objects.handle o op.handler (.fromInt v)))

/-- When a literal on the right does as its number does. -/
def RightCondition (op : Op) (v : Integer) (text : String) : Value O → Prop
  | .prim a => op.isShift → op.prim F (.int v) a = op.prim F a (.int v)
  | .object (.int _) | .object (.verbatimInt _ _) => True
  | .object (.f64 f) | .object (.verbatimF64 f _) => op.isBits → packs v = false ∧
      op.prim F (.int v) (.f64 f) = op.prim F (.f64 f) (.int v)
  | .object (.other o) =>
    Same (settle (orElse (objects.handle o (.forward op) (literal v text))
        (verbatimReflected F objects v text (.object (.other o)) op)))
      (settle (orElse (objects.handle o (.forward op) (.fromInt v))
        (if packs v then .error (.unsupported "") else
          intReflected F objects v (.object (.other o)) op)))

variable {F objects same} {op : Op} {v : Integer} {text : String} {w : Value O} {p : Prim}

theorem fromInt_of_packs (h : packs v) : (Value.fromInt v : Value O) = .prim (.int v) := if_pos h

theorem fromInt_of_not_packs (h : packs v = false) :
    (Value.fromInt v : Value O) = .object (.int v) := if_neg (by simp [h])

theorem Same.rfl {res : Except OpError (Value O)} : Same res res := Eq.refl _

/-- An integer that is boxed does what a literal does on the left of a number. -/
theorem left_of_not_packs (h : packs v = false) (hw : w.number = some p) :
    Same (Value.op F objects op (literal v text) w) (Value.op F objects op (.fromInt v) w) := by
  rw [fromInt_of_not_packs h, literal, op_verbatim v text hw, op_int v hw]
  exact .rfl

theorem orElse_self (res : Except OpError (Value O)) : orElse res res = res := by
  cases res with
  | ok x => exact rfl
  | error e => cases e <;> exact rfl

/-- A literal on the left of another object. -/
theorem op_literal_other (o : O) :
    Value.op F objects op (literal v text) (.object (.other o)) =
      if op = .gt ∨ op = .gte then settle (objects.handle o op.handler (literal v text))
      else binop objects (.int v) (.object (.other o)) (op.prim F) := by
  have hsettled : ∀ res, settle (binop objects (.int v) (.object (.other o)) (op.prim F)) =
        binop objects (.int v) (.object (.other o)) (op.prim F) ∧
      orElse (binop objects (.int v) (.object (.other o)) (op.prim F)) res =
        binop objects (.int v) (.object (.other o)) (op.prim F) := settled_binop op _ _
  have hlte : numberLte objects (.int v) (.object (.other o)) =
      binop objects (.int v) (.object (.other o)) Prim.opLte := numberLte_eq _ _ (.inl ⟨v, rfl⟩)
  cases op with
  | gt => exact congrArg settle (orElse_self _)
  | gte => exact congrArg settle (orElse_self _)
  | lte =>
    rw [if_neg (by decide), literal, Value.op, Obj.forward, verbatimForward, hlte]
    exact (congrArg settle (hsettled _).2).trans (hsettled (.error .index)).1
  | _ =>
    rw [if_neg (by decide)]
    exact (congrArg settle (hsettled _).2).trans (hsettled (.error .index)).1

theorem op_int_other (o : O) :
    Value.op F objects op (.object (.int v)) (.object (.other o)) =
      if op = .gt ∨ op = .gte then settle (objects.handle o op.handler (.object (.int v)))
      else binop objects (.int v) (.object (.other o)) (op.prim F) := by
  have hsettled : ∀ res, settle (binop objects (.int v) (.object (.other o)) (op.prim F)) =
        binop objects (.int v) (.object (.other o)) (op.prim F) ∧
      orElse (binop objects (.int v) (.object (.other o)) (op.prim F)) res =
        binop objects (.int v) (.object (.other o)) (op.prim F) := settled_binop op _ _
  have hlte : numberLte objects (.int v) (.object (.other o)) =
      binop objects (.int v) (.object (.other o)) Prim.opLte := numberLte_eq _ _ (.inl ⟨v, rfl⟩)
  cases op with
  | gt => exact congrArg settle (orElse_self _)
  | gte => exact congrArg settle (orElse_self _)
  | lte =>
    rw [if_neg (by decide), Value.op, Obj.forward, intForward, hlte]
    exact (congrArg settle (hsettled _).2).trans (hsettled (.error .index)).1
  | _ =>
    rw [if_neg (by decide)]
    exact (congrArg settle (hsettled _).2).trans (hsettled (.error .index)).1

/-- A float's handlers refuse the operators on bits otherwise than the primitive ones do. -/
theorem not_same_bits (hop : op.isBits) (v : Integer) (f : F64) {a b : Prim}
    (h : a = .int v ∧ b = .f64 f ∨ a = .f64 f ∧ b = .int v ∧ op.isShift = false) (msg : String) :
    ¬ Same (converted (op.prim F) a b : Except OpError (Value O))
      (settle (.error (.unsupported msg))) := by
  obtain ⟨msg', hne, herr⟩ := bits_refused (F := F) hop v f h
  rw [Same, converted, herr]
  exact fun heq => hne (OpError.typeError.inj (Except.error.inj heq))

/-- A literal and a packed integer on the left of a float. -/
theorem left_float (hF : Commutes F) (hpacks : packs v) {this : Obj O} {f : F64}
    (hthis : (Value.object this).number = some (.f64 f))
    (hreflected : ∀ w, this.reflected F objects w op = floatReflected F objects this f w op) :
    Same (Value.op F objects op (literal v text) (.object this))
      (Value.op F objects op (.fromInt v) (.object this)) ↔ op.isBits = false := by
  rw [literal, op_verbatim v text hthis, fromInt_of_packs hpacks, Value.op, hreflected]
  cases hop : op.isBits with
  | false =>
    rw [floatReflected_eq hF hthis (rfl) hop, settle_converted]
    exact ⟨fun _ => rfl, fun _ => .rfl⟩
  | true =>
    obtain ⟨msg, hmsg⟩ : ∃ msg, floatReflected F objects this f (.prim (.int v)) op =
        .error (.unsupported msg) := floatReflected_bits this _ hop
    rw [hmsg]
    exact ⟨fun h => absurd h (not_same_bits hop v f (.inl ⟨rfl, rfl⟩) msg),
      fun h => by cases h⟩

/-- When a literal on the left does as its number does. -/
theorem left_iff (hF : Commutes F) :
    Same (Value.op F objects op (literal v text) w) (Value.op F objects op (.fromInt v) w) ↔
      LeftCondition F objects op v text w := by
  cases hpacks : packs v with
  | false =>
    cases w with
    | prim a => exact ⟨fun _ => trivial, fun _ => left_of_not_packs hpacks (rfl)⟩
    | object object =>
      cases object with
      | int n => exact ⟨fun _ => trivial, fun _ => left_of_not_packs hpacks (rfl)⟩
      | verbatimInt n t =>
        exact ⟨fun _ h => absurd h (by simp [hpacks]), fun _ => left_of_not_packs hpacks (rfl)⟩
      | f64 f =>
        exact ⟨fun _ h => absurd h (by simp [hpacks]), fun _ => left_of_not_packs hpacks (rfl)⟩
      | verbatimF64 f t =>
        exact ⟨fun _ h => absurd h (by simp [hpacks]), fun _ => left_of_not_packs hpacks (rfl)⟩
      | other o =>
        rw [fromInt_of_not_packs hpacks, op_literal_other, op_int_other, LeftCondition,
          fromInt_of_not_packs hpacks]
        split_ifs with hop
        · exact Iff.rfl
        · exact ⟨fun _ h => absurd h (by simp [hpacks]), fun _ => .rfl⟩
  | true =>
    cases w with
    | prim a =>
      refine ⟨fun _ => trivial, fun _ => ?_⟩
      rw [fromInt_of_packs hpacks, literal, op_verbatim v text (rfl), op_prims]
      exact .rfl
    | object object =>
      cases object with
      | int n =>
        refine ⟨fun _ => trivial, fun _ => ?_⟩
        rw [fromInt_of_packs hpacks, literal, op_verbatim v text (rfl), Value.op, Obj.reflected,
          intReflected_eq hF (rfl), settle_converted]
        exact .rfl
      | verbatimInt n t =>
        rw [fromInt_of_packs hpacks, literal, op_verbatim v text (rfl), Value.op, Obj.reflected,
          LeftCondition]
        cases hop : op.isShift with
        | false =>
          rw [verbatimReflected_eq hF t (rfl) hop, settle_converted]
          exact ⟨fun _ _ h => (by cases h), fun _ => .rfl⟩
        | true =>
          rw [verbatimReflected_shift t (rfl) hop, settle_converted]
          exact (same_shift_iff hop).trans ⟨fun h _ _ => h, fun h => h hpacks (rfl)⟩
      | f64 f =>
        refine (left_float hF hpacks (rfl) fun w => rfl).trans ?_
        exact ⟨fun h _ => h, fun h => h hpacks⟩
      | verbatimF64 f t =>
        refine (left_float hF hpacks (rfl) fun w => rfl).trans ?_
        exact ⟨fun h _ => h, fun h => h hpacks⟩
      | other o =>
        rw [op_literal_other, LeftCondition]
        split_ifs with hop
        · rw [fromInt_of_packs hpacks]
          exact Iff.rfl
        · rw [fromInt_of_packs hpacks]
          exact ⟨fun h _ => h, fun h => h hpacks⟩

/-- A float on the left of a literal and of a plain integer. -/
theorem right_float (hF : Commutes F) {this : Obj O} {f : F64}
    (hthis : (Value.object this).number = some (.f64 f))
    (hforward : ∀ w, this.forward F objects w op = floatForward F objects this f w op) :
    Same (Value.op F objects op (.object this) (literal v text))
      (Value.op F objects op (.object this) (.fromInt v)) ↔
      (op.isBits → packs v = false ∧
        op.prim F (.int v) (.f64 f) = op.prim F (.f64 f) (.int v)) := by
  have hplain : (Value.fromInt v : Value O).number = some (.int v) := by
    rw [Value.fromInt]
    split_ifs <;> exact rfl
  cases hop : op.isBits with
  | false =>
    rw [op_of_forward (w := literal v text) (rfl)
        ((hforward _).trans (floatForward_eq hthis (rfl) hop)),
      op_of_forward hplain ((hforward _).trans (floatForward_eq hthis hplain hop))]
    exact ⟨fun _ h => (by cases h), fun _ => .rfl⟩
  | true =>
    obtain ⟨msg, hmsg⟩ : ∃ msg, floatForward F objects this f (literal v text) op =
        .error (.unsupported msg) := floatForward_bits this _ hop
    obtain ⟨msg', hmsg'⟩ : ∃ msg, floatForward F objects this f (.fromInt v) op =
        .error (.unsupported msg) := floatForward_bits this _ hop
    -- the literal is asked when the float does not know the operator
    have hliteral : Value.op F objects op (.object this) (literal v text) =
        settle (verbatimReflected F objects v text (.object this) op) := by
      rw [literal, Value.op, hforward, ← literal, hmsg]
      rfl
    have hrefused : ∀ a b, a = .int v ∧ b = .f64 f ∨ a = .f64 f ∧ b = .int v ∧ op.isShift = false →
        ¬ Same (converted (op.prim F) a b : Except OpError (Value O))
          (settle (.error (.unsupported msg'))) := fun a b h => not_same_bits hop v f h msg'
    cases hpacks : packs v with
    | true =>
      have hint : Value.op F objects op (.object this) (.fromInt v) =
          settle (.error (.unsupported msg')) := by
        rw [fromInt_of_packs hpacks] at hmsg' ⊢
        rw [Value.op, hforward, hmsg']
      rw [hliteral, hint]
      refine ⟨fun h => absurd h ?_, fun h => by cases (h rfl).1⟩
      cases hshift : op.isShift with
      | true =>
        rw [verbatimReflected_shift text hthis hshift, settle_converted]
        exact hrefused _ _ (.inl ⟨rfl, rfl⟩)
      | false =>
        rw [verbatimReflected_eq hF text hthis hshift, settle_converted]
        exact hrefused _ _ (.inr ⟨rfl, rfl, hshift⟩)
    | false =>
      have hint : Value.op F objects op (.object this) (.fromInt v) =
          converted (op.prim F) (.f64 f) (.int v) := by
        rw [fromInt_of_not_packs hpacks] at hmsg' ⊢
        rw [Value.op, hforward, hmsg', orElse, Obj.reflected, intReflected_eq hF hthis,
          settle_converted]
      rw [hliteral, hint]
      cases hshift : op.isShift with
      | true =>
        rw [verbatimReflected_shift text hthis hshift, settle_converted, same_shift_iff hshift]
        exact ⟨fun h _ => ⟨rfl, h⟩, fun h => (h rfl).2⟩
      | false =>
        rw [verbatimReflected_eq hF text hthis hshift, settle_converted]
        refine ⟨fun _ _ => ⟨rfl, Op.prim_comm hF op ?_ _ _⟩, fun _ => .rfl⟩
        cases op with
        | band | bor | bxor => rfl
        | shl | shr => exact absurd hshift (by decide)
        | _ => exact absurd hop Bool.false_ne_true

/-- When a literal on the right does as its number does. -/
theorem right_iff (hF : Commutes F) :
    Same (Value.op F objects op w (literal v text)) (Value.op F objects op w (.fromInt v)) ↔
      RightCondition F objects op v text w := by
  have hplain : (Value.fromInt v : Value O).number = some (.int v) := by
    rw [Value.fromInt]
    split_ifs <;> rfl
  cases w with
  | prim a =>
    have hliteral : Value.op F objects op (.prim a) (literal v text) =
        settle (verbatimReflected F objects v text (.prim a) op) := rfl
    rw [hliteral, op_fromInt_right hF, RightCondition]
    cases hshift : op.isShift with
    | true =>
      rw [verbatimReflected_shift text rfl hshift, settle_converted, same_shift_iff hshift]
      exact ⟨fun h _ => h, fun h => h rfl⟩
    | false =>
      rw [verbatimReflected_eq hF text rfl hshift, settle_converted]
      exact ⟨fun _ h => (by cases h), fun _ => .rfl⟩
  | object object =>
    cases object with
    | int n =>
      refine ⟨fun _ => trivial, fun _ => ?_⟩
      rw [op_int n (w := literal v text) rfl, op_int n hplain]
      exact .rfl
    | verbatimInt n t =>
      refine ⟨fun _ => trivial, fun _ => ?_⟩
      rw [op_verbatim n t (w := literal v text) rfl, op_verbatim n t hplain]
      exact .rfl
    | f64 f => exact right_float hF rfl fun _ => rfl
    | verbatimF64 f t => exact right_float hF rfl fun _ => rfl
    | other o =>
      have hliteral : Value.op F objects op (.object (.other o)) (literal v text) =
          settle (orElse (objects.handle o (.forward op) (literal v text))
            (verbatimReflected F objects v text (.object (.other o)) op)) := rfl
      rw [hliteral, RightCondition]
      cases hpacks : packs v with
      | true =>
        have hsettle : ∀ res : Except OpError (Value O),
            settle (orElse res (.error (.unsupported ""))) = settle res := by
          intro res
          cases res with
          | ok x => rfl
          | error e => cases e <;> rfl
        rw [fromInt_of_packs hpacks, if_pos rfl, hsettle]
        exact Iff.rfl
      | false =>
        rw [fromInt_of_not_packs hpacks, if_neg Bool.false_ne_true]
        exact Iff.rfl

/-! ### Equality -/

variable (F objects same)

/-- `==`, or `!=`. -/
def equality (negate : Bool) : Value O → Value O → Except OpError (Value O) :=
  if negate then Value.opNe objects same else Value.opEq objects same

/-- Whether a number is equal to what an operand converts to. -/
def equals (negate : Bool) (a : Prim) (w : Value O) : Except OpError (Value O) :=
  match w.toPrim objects with
  | .ok p => .ok (.fromBool (a.opEq p ^^ negate))
  | .error _ => .error (.unsupported "`==`")

/-- How an object on the right answers. If it does not, it is no number. -/
def answer (negate : Bool) (o : O) (x : Value O) : Except OpError (Value O) :=
  orElse (objects.handle o (if negate then .rne else .req) x) (.ok (.fromBool negate))

/-- When a literal on the left is equal to what its number is equal to. -/
def LeftEquality (negate : Bool) (v : Integer) (text : String) : Value O → Prop
  | .object (.other o) =>
    if packs v then
      Same (orElse (equals objects negate (.int v) (.object (.other o)))
        (answer objects negate o (literal v text))) (answer objects negate o (.fromInt v))
    else objects.toPrim o = none →
      Same (answer objects negate o (literal v text)) (answer objects negate o (.fromInt v))
  | _ => True

/-- When a literal on the right is equal to what its number is equal to. -/
def RightEquality (negate : Bool) (v : Integer) (text : String) : Value O → Prop
  | .object (.other o) =>
    let handler := if negate then .ne else .eq
    let equals := equals objects negate (.int v) (.object (.other o))
    Same (orElse (orElse (objects.handle o handler (literal v text)) equals)
        (.ok (.fromBool negate)))
      (orElse (orElse (objects.handle o handler (.fromInt v))
        (if packs v then .error (.unsupported "") else equals)) (.ok (.fromBool negate)))
  | _ => True

variable {F objects same} {negate : Bool}

theorem numberEq_eq (a : Prim) (w : Value O) :
    numberEq objects a w = equals objects false a w := by
  rw [numberEq, equals]
  cases w.toPrim objects with
  | ok p => exact congrArg _ (congrArg _ (Bool.xor_false _).symm)
  | error e => rfl

/-- A number's `!=` is the negation of its `==`. -/
theorem numberNe_eq {this : Obj O} {a : Prim} (w : Value O)
    (h : ∀ w, this.opEq objects w = numberEq objects a w) :
    numberNe objects this w = equals objects true a w := by
  rw [numberNe, h, numberEq, equals]
  cases w.toPrim objects with
  | ok p => exact congrArg _ (congrArg _ (Bool.xor_true _).symm)
  | error e => rfl

/-- The handlers of a number's object for equality. -/
theorem equality_handlers (objects : Objects O) {this : Obj O} {a : Prim} (h : (Value.object this).number = some a)
    (w : Value O) :
    this.opEq objects w = equals objects false a w ∧
      this.opReq objects w = equals objects false a w ∧
      this.opNe objects w = equals objects true a w ∧
      this.opRne objects w = equals objects true a w := by
  match this, h with
  | .int v, h =>
    obtain rfl := Option.some.inj h
    exact ⟨numberEq_eq _ w, numberEq_eq _ w, numberNe_eq w fun _ => rfl, numberNe_eq w fun _ => rfl⟩
  | .verbatimInt v t, h =>
    obtain rfl := Option.some.inj h
    exact ⟨numberEq_eq _ w, numberEq_eq _ w, numberNe_eq w fun _ => rfl, numberNe_eq w fun _ => rfl⟩
  | .f64 f, h =>
    obtain rfl := Option.some.inj h
    exact ⟨numberEq_eq _ w, numberEq_eq _ w, numberNe_eq w fun _ => rfl, numberNe_eq w fun _ => rfl⟩
  | .verbatimF64 f t, h =>
    obtain rfl := Option.some.inj h
    exact ⟨numberEq_eq _ w, numberEq_eq _ w, numberNe_eq w fun _ => rfl, numberNe_eq w fun _ => rfl⟩

theorem equals_number {a p : Prim} (h : w.number = some p) :
    equals objects negate a w = .ok (.fromBool (a.opEq p ^^ negate)) := by
  rw [equals, w.toPrim_of_number h]

/-- Numbers are compared as primitive values, in whatever way they are held. -/
theorem equality_numbers {x : Value O} {a b : Prim} (hw : w.number = some a)
    (hx : x.number = some b) (hint : a.IsInt ∨ b.IsInt) :
    equality objects same negate w x = .ok (.fromBool (a.opEq b ^^ negate)) := by
  have hcomm : b.opEq a = a.opEq b := by
    rcases hint with h | h
    · exact (Prim.opEq_comm_of_int h).symm
    · exact Prim.opEq_comm_of_int h
  match w, hw, x, hx with
  | .prim _, hw, .prim _, hx =>
    obtain rfl := Option.some.inj hw
    obtain rfl := Option.some.inj hx
    cases negate
    · exact congrArg _ (congrArg _ (Bool.xor_false _).symm)
    · exact congrArg _ (congrArg _ (Bool.xor_true _).symm)
  | .object l, hw, .prim c, hx =>
    obtain ⟨heq, -, hne, -⟩ := equality_handlers objects hw (.prim c)
    cases negate
    · rw [equality, if_neg Bool.false_ne_true, Value.opEq, heq, equals_number hx]
      rfl
    · rw [equality, if_pos rfl, Value.opNe, hne, equals_number hx]
      rfl
  | .prim c, hw, .object r, hx =>
    obtain ⟨-, hreq, -, hrne⟩ := equality_handlers objects hx (.prim c)
    cases negate
    · rw [equality, if_neg Bool.false_ne_true, Value.opEq, hreq, equals_number hw, hcomm]
      rfl
    · rw [equality, if_pos rfl, Value.opNe, hrne, equals_number hw, hcomm]
      rfl
  | .object l, hw, .object r, hx =>
    obtain ⟨heq, -, hne, -⟩ := equality_handlers objects hw (.object r)
    cases negate
    · rw [equality, if_neg Bool.false_ne_true, Value.opEq, heq, equals_number hx]
      rfl
    · rw [equality, if_pos rfl, Value.opNe, hne, equals_number hx]
      rfl

theorem number_fromInt (v : Integer) : (Value.fromInt v : Value O).number = some (.int v) := by
  rw [Value.fromInt]
  split_ifs <;> rfl

theorem orElse_assoc (a b c : Except OpError (Value O)) :
    orElse (orElse a b) c = orElse a (orElse b c) := by
  cases a with
  | ok x => rfl
  | error e => cases e <;> rfl

/-- A number is not another object. -/
theorem reprEq_other (same : O → O → Bool) {x : Value O} {a : Prim} (h : x.number = some a) (o : O) :
    x.reprEq same (.object (.other o)) = false ∧ Value.reprEq same (.object (.other o)) x = false := by
  match x, h with
  | .prim _, _ => exact ⟨rfl, rfl⟩
  | .object (.int _), _ => exact ⟨rfl, rfl⟩
  | .object (.verbatimInt _ _), _ => exact ⟨rfl, rfl⟩
  | .object (.f64 _), _ => exact ⟨rfl, rfl⟩
  | .object (.verbatimF64 _ _), _ => exact ⟨rfl, rfl⟩

/-- A number's object on the left of another object. -/
theorem equality_object_other {this : Obj O} {a : Prim} (h : (Value.object this).number = some a)
    (o : O) :
    equality objects same negate (.object this) (.object (.other o)) =
      orElse (equals objects negate a (.object (.other o)))
        (answer objects negate o (.object this)) := by
  obtain ⟨heq, -, hne, -⟩ := equality_handlers objects h (.object (.other o))
  have hrepr := (reprEq_other same h o).1
  cases negate
  · rw [equality, if_neg Bool.false_ne_true, Value.opEq, Value.settleEq, heq, hrepr, orElse_assoc]
    rfl
  · rw [equality, if_pos rfl, Value.opNe, Value.settleEq, hne, hrepr, orElse_assoc]
    rfl

/-- A primitive value on the left of another object. -/
theorem equality_prim_other (a : Prim) (o : O) :
    equality objects same negate (.prim a) (.object (.other o)) =
      answer objects negate o (.prim a) := by
  cases negate <;> rfl

/-- Another object on the left of a number's object. -/
theorem equality_other_object {this : Obj O} {a : Prim} (h : (Value.object this).number = some a)
    (o : O) :
    equality objects same negate (.object (.other o)) (.object this) =
      orElse (orElse (objects.handle o (if negate then .ne else .eq) (.object this))
        (equals objects negate a (.object (.other o)))) (.ok (.fromBool negate)) := by
  obtain ⟨-, hreq, -, hrne⟩ := equality_handlers objects h (.object (.other o))
  have hrepr := (reprEq_other same h o).2
  cases negate
  · rw [equality, if_neg Bool.false_ne_true, Value.opEq, Value.settleEq, hreq, hrepr]
    rfl
  · rw [equality, if_pos rfl, Value.opNe, Value.settleEq, hrne, hrepr]
    rfl

theorem equality_other_prim (a : Prim) (o : O) :
    equality objects same negate (.object (.other o)) (.prim a) =
      orElse (objects.handle o (if negate then .ne else .eq) (.prim a)) (.ok (.fromBool negate)) := by
  cases negate <;> rfl

theorem left_equality_iff :
    Same (equality objects same negate (literal v text) w)
        (equality objects same negate (.fromInt v) w) ↔
      LeftEquality objects negate v text w := by
  cases hw : w.number with
  | some p =>
    have hliteral : (literal v text : Value O).number = some (.int v) := rfl
    rw [equality_numbers hliteral hw (.inl ⟨v, rfl⟩),
      equality_numbers (number_fromInt v) hw (.inl ⟨v, rfl⟩)]
    refine ⟨fun _ => ?_, fun _ => .rfl⟩
    cases w with
    | prim p => trivial
    | object object =>
      cases object with
      | other o => cases hw
      | _ => trivial
  | none =>
    cases w with
    | prim p => cases hw
    | object object =>
      cases object with
      | other o =>
        rw [literal, equality_object_other (a := .int v) rfl, LeftEquality, literal]
        cases hpacks : packs v with
        | true =>
          rw [fromInt_of_packs hpacks, equality_prim_other, if_pos rfl]
        | false =>
          rw [fromInt_of_not_packs hpacks, equality_object_other (a := .int v) rfl,
            if_neg Bool.false_ne_true, equals, Value.toPrim]
          cases objects.toPrim o with
          | none => exact ⟨fun h _ => h, fun h => h rfl⟩
          | some p => exact ⟨fun _ h => (by cases h), fun _ => .rfl⟩
      | _ => cases hw

theorem right_equality_iff :
    Same (equality objects same negate w (literal v text))
        (equality objects same negate w (.fromInt v)) ↔
      RightEquality objects negate v text w := by
  cases hw : w.number with
  | some p =>
    have hliteral : (literal v text : Value O).number = some (.int v) := rfl
    rw [equality_numbers hw hliteral (.inr ⟨v, rfl⟩),
      equality_numbers hw (number_fromInt v) (.inr ⟨v, rfl⟩)]
    refine ⟨fun _ => ?_, fun _ => .rfl⟩
    match w, hw with
    | .prim _, _ => trivial
    | .object (.int _), _ => trivial
    | .object (.verbatimInt _ _), _ => trivial
    | .object (.f64 _), _ => trivial
    | .object (.verbatimF64 _ _), _ => trivial
  | none =>
    match w, hw with
    | .object (.other o), _ =>
      rw [literal, equality_other_object (a := .int v) rfl, RightEquality, literal]
      cases hpacks : packs v with
      | true =>
        have hunsupported : ∀ res : Except OpError (Value O),
            orElse res (.error (.unsupported "")) = res ∨
              ∃ msg, res = .error (.unsupported msg) := by
          intro res
          cases res with
          | ok x => exact .inl rfl
          | error e => cases e <;> first | exact .inl rfl | exact .inr ⟨_, rfl⟩
        rw [fromInt_of_packs hpacks, equality_other_prim, if_pos rfl]
        rcases hunsupported (objects.handle o (if negate then .ne else .eq) (.prim (.int v))) with
          h | ⟨msg, h⟩
        · rw [h]
        · rw [h]
          rfl
      | false =>
        rw [fromInt_of_not_packs hpacks, equality_other_object (a := .int v) rfl,
          if_neg Bool.false_ne_true]

/-! ### Reversed operators -/

def Value.isLiteral : Value O → Bool
  | .object (.verbatimInt _ _) => true
  | _ => false

/-- The integer of a value that stands for one. -/
def Value.integer (w : Value O) (i : Integer) : Prop :=
  w.number = some (.int i)

/-- A reversed operator computes the operator on the integers exchanged, unless it is a shift of a
literal. -/
theorem reversed_iff (hF : Commutes F) {a b : Value O} {i j : Integer} (hop : op.isOrder = false)
    (ha : a.integer i) (hb : b.integer j) :
    Same (Value.opReversed F objects op a b) (converted (op.prim F) (.int j) (.int i)) ↔
      (op.isShift → a.isLiteral → op.prim F (.int i) (.int j) = op.prim F (.int j) (.int i)) := by
  have hforward : ∀ (r : Obj O) (x : Value O), (Value.object r).integer j → x.integer i →
      r.forward F objects x op = converted (op.prim F) (.int j) (.int i) := by
    intro r x hr hx
    match r, hr with
    | .int n, hr =>
      obtain rfl := Prim.int.inj (Option.some.inj hr)
      exact intForward_eq hx
    | .verbatimInt n t, hr =>
      obtain rfl := Prim.int.inj (Option.some.inj hr)
      exact verbatimForward_eq t hx
  -- an object on the left computes by its own handler
  have hleft : ∀ (l : Obj O) (x y : Prim), l.reflected F objects b op = converted (op.prim F) x y →
      Value.opReversed F objects op (.object l) b = converted (op.prim F) x y := by
    intro l x y hl
    match b with
    | .prim _ =>
      rw [Value.opReversed, hl]
      exact settle_converted x y
    | .object _ =>
      rw [Value.opReversed, hl, orElse_converted]
      exact settle_converted x y
  match a, ha with
  | .prim p, ha =>
    obtain rfl := Option.some.inj ha
    refine ⟨fun _ _ h => (nomatch h), fun _ => ?_⟩
    match b, hb with
    | .prim q, hb =>
      obtain rfl := Option.some.inj hb
      rw [Value.opReversed, Op.primReversed_eq hF hop]
      exact (congrArg _ (settle_converted _ _)).trans rfl
    | .object r, hb =>
      rw [Value.opReversed, hforward r (.prim (.int i)) hb rfl, settle_converted]
      exact .rfl
  | .object (.int n), ha =>
    obtain rfl := Prim.int.inj (Option.some.inj ha)
    rw [hleft (.int n) _ _ (intReflected_eq hF hb)]
    exact ⟨fun _ _ h => (nomatch h), fun _ => .rfl⟩
  | .object (.verbatimInt n t), ha =>
    obtain rfl := Prim.int.inj (Option.some.inj ha)
    cases hshift : op.isShift with
    | true =>
      rw [hleft (.verbatimInt n t) _ _ (verbatimReflected_shift t hb hshift), same_shift_iff hshift]
      exact ⟨fun h _ _ => h, fun h => h rfl rfl⟩
    | false =>
      rw [hleft (.verbatimInt n t) _ _ (verbatimReflected_eq hF t hb hshift)]
      exact ⟨fun _ h => (nomatch h), fun _ => .rfl⟩

end

/-- No objects but numbers. -/
def noObjects : Objects Empty where
  toPrim := nofun
  handle := nofun
  toBool := nofun

end Dolang.Runtime.Operator
