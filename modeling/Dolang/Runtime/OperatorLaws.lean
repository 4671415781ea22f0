import Dolang.Runtime.Operator

/-!
# Literals stand for their numbers

An operator gives the same for an integer literal as for the plain integer, on either side, but where a
literal is the right operand of a shift and where the dispatch makes a difference between a plain
integer that is in a word and any object: the handler of the other operand is then asked instead of the
literal's.
-/

namespace Dolang.Runtime

namespace Prim

/-! ### Primitive operators -/

variable (F : Floats)

/-- A primitive operator is supported. -/
def Supported (res : Except OpError Prim) : Prop :=
  ∀ msg, res ≠ .error (.unsupported msg)

theorem supported_ok (p : Prim) : Supported (.ok p) := fun _ h => nomatch h

theorem supported_intOr {e : OpError} (he : ∀ msg, e ≠ .unsupported msg) (v : Option Integer) :
    Supported (intOr e v) := by
  cases v with
  | none => exact fun msg h => he msg (Except.error.inj h)
  | some v => exact supported_ok _

theorem supported_bitop {iop : Integer → Integer → Integer} {bop : Bool → Bool → Bool}
    {msg : String} (a b : Prim) : Supported (bitop iop bop msg a b) := by
  intro m h
  cases a <;> cases b <;> simp [bitop] at h

theorem supported_shift {op : Integer → ℕ → Integer} {side : String} (a b : Prim) :
    Supported (shift op side a b) := by
  intro m h
  cases b with
  | int n =>
    by_cases hn : 0 ≤ n.toInt ∧ n.toInt < 128
    · cases a <;> simp [shift, hn] at h
    · simp [shift, hn] at h
  | _ => simp [shift] at h

theorem supported_numeric {iop : Integer → Integer → Except OpError Prim} {fop : F64 → F64 → Prim}
    {msg : String} (hi : ∀ a b, Supported (iop a b)) (a b : Prim) :
    Supported (numeric F iop fop msg a b) := by
  cases a <;> cases b <;> first | exact hi _ _ | exact supported_ok _ | exact fun _ h => nomatch h

theorem supported_cmpop (iop : ℤ → ℤ → Bool) (fop : F64 → F64 → Bool) (ifop : Integer → F64 → Bool)
    (fiop : F64 → Integer → Bool) (a b : Prim) : Supported (cmpop iop fop ifop fiop a b) := by
  cases a <;> cases b <;> first | exact supported_ok _ | exact fun _ h => nomatch h

theorem opGt_eq (a b : Prim) : opGt a b = opLt b a := by
  cases a <;> cases b <;> rfl

theorem opGte_eq (a b : Prim) : opGte a b = opLte b a := by
  cases a <;> cases b <;> rfl

theorem opLt_bool {a b p : Prim} (h : opLt a b = .ok p) : ∃ l, p = .bool l := by
  cases a <;> cases b <;>
    first | exact ⟨_, (Except.ok.inj h).symm⟩ | exact nomatch h

/-- An integer. -/
def IsInt (p : Prim) : Prop := ∃ v, p = .int v

/-- Next to an integer, the order or the equality is the order with equality. -/
theorem opLte_eq {a b : Prim} (h : a.IsInt ∨ b.IsInt) :
    opLte a b = (opLt a b).map fun lt => .bool (lt == .bool true || a.opEq b) := by
  have hint : ∀ l r : Integer, opLte (.int l) (.int r) =
      (opLt (.int l) (.int r)).map fun lt => .bool (lt == .bool true || opEq (.int l) (.int r)) := by
    intro l r
    have hle : decide (l.toInt ≤ r.toInt) = (decide (l.toInt < r.toInt) || l == r) := by
      rw [Bool.eq_iff_iff, Bool.or_eq_true, decide_eq_true_eq, decide_eq_true_eq, beq_iff_eq,
        ← BitVec.toInt_inj]
      omega
    simp only [opLte, opLt, cmpop, opEq, Except.map, hle]
    by_cases hlt : l.toInt < r.toInt <;> simp [hlt]
  have hbool : ∀ l e : Bool, (Except.ok (.bool (l || e)) : Except OpError Prim) =
      (Except.ok (Prim.bool l)).map fun lt => .bool (lt == .bool true || e) := by
    intro l e
    cases l <;> rfl
  rcases h with ⟨v, rfl⟩ | ⟨v, rfl⟩
  · cases b with
    | int r => exact hint v r
    | f64 r => exact hbool _ _
    | nil => rfl
    | bool r => rfl
  · cases a with
    | int l => exact hint l v
    | f64 l => exact hbool _ _
    | nil => rfl
    | bool l => rfl

theorem opEq_comm_of_int {a b : Prim} (h : a.IsInt) : a.opEq b = b.opEq a := by
  obtain ⟨v, rfl⟩ := h
  cases b with
  | int r => exact Bool.beq_comm
  | _ => rfl

end Prim

namespace Operator

/-- Sums and products of floats do not depend on the order of their operands. -/
structure Commutes (F : Floats) : Prop where
  add : ∀ a b, F.add a b = F.add b a
  mul : ∀ a b, F.mul a b = F.mul b a

namespace Op

variable {F : Floats} {op : Op}

/-- The operators on bits. -/
def isBits : Op → Bool
  | .band | .bor | .bxor | .shl | .shr => true
  | _ => false

def isShift : Op → Bool
  | .shl | .shr => true
  | _ => false

def isOrder : Op → Bool
  | .lt | .lte | .gt | .gte => true
  | _ => false

theorem prim_supported (op : Op) (a b : Prim) : Prim.Supported (op.prim F a b) := by
  have hoverflow : ∀ v, Prim.Supported (Prim.intOr .overflow v) := fun v =>
    Prim.supported_intOr (by rintro _ ⟨⟩) v
  have hzero : ∀ v, Prim.Supported (Prim.intOr .zeroDiv v) := fun v =>
    Prim.supported_intOr (by rintro _ ⟨⟩) v
  cases op with
  | band | bor | bxor => exact Prim.supported_bitop a b
  | shl | shr => exact Prim.supported_shift a b
  | add | sub | mul => exact Prim.supported_numeric F (fun _ _ => hoverflow _) a b
  | ediv | mod => exact Prim.supported_numeric F (fun _ _ => hzero _) a b
  | div =>
    refine Prim.supported_numeric F (fun i j => ?_) a b
    split_ifs
    · exact fun msg h => nomatch h
    · exact Prim.supported_ok _
  | lt => exact Prim.supported_cmpop (fun l r => l < r) _ _ _ a b
  | lte => exact Prim.supported_cmpop (fun l r => l ≤ r) _ _ _ a b
  | gt => exact Prim.supported_cmpop (fun l r => l > r) _ _ _ a b
  | gte => exact Prim.supported_cmpop (fun l r => l ≥ r) _ _ _ a b

/-- The operators whose handlers do not tell the sides apart. -/
def isSymmetric : Op → Bool
  | .band | .bor | .bxor | .add | .mul => true
  | _ => false

theorem prim_comm (hF : Commutes F) (op : Op) (h : op.isSymmetric) (a b : Prim) :
    op.prim F a b = op.prim F b a := by
  have hbit : ∀ {iop : Integer → Integer → Integer} {bop : Bool → Bool → Bool} {msg : String},
      (∀ a b, iop a b = iop b a) → (∀ a b, bop a b = bop b a) →
      Prim.bitop iop bop msg a b = Prim.bitop iop bop msg b a := by
    intro iop bop msg hi hb
    cases a <;> cases b <;> simp only [Prim.bitop, hi, hb]
  cases op with
  | band => exact hbit BitVec.and_comm Bool.and_comm
  | bor => exact hbit BitVec.or_comm Bool.or_comm
  | bxor => exact hbit BitVec.xor_comm Bool.xor_comm
  | add =>
    refine Prim.numeric_swap F (fun i j => ?_) (fun i j => ?_) _ a b
    · rw [Integer.checkedAdd, Integer.checkedAdd, Int.add_comm]
    · rw [hF.add]
  | mul =>
    refine Prim.numeric_swap F (fun i j => ?_) (fun i j => ?_) _ a b
    · rw [Integer.checkedMul, Integer.checkedMul, Int.mul_comm]
    · rw [hF.mul]
  | _ => exact absurd h Bool.false_ne_true

/-- The primitive operator in the other direction. -/
theorem primReversed_eq (hF : Commutes F) (hop : op.isOrder = false) (a b : Prim) :
    op.primReversed F a b = op.prim F b a := by
  cases op with
  | band => exact prim_comm hF .band rfl a b
  | bor => exact prim_comm hF .bor rfl a b
  | bxor => exact prim_comm hF .bxor rfl a b
  | add => exact prim_comm hF .add rfl a b
  | mul => exact prim_comm hF .mul rfl a b
  | shl | shr => rfl
  | sub => exact Prim.opRsub_eq F a b
  | div => exact Prim.opRdiv_eq F a b
  | ediv => exact Prim.opRediv_eq F a b
  | mod => exact Prim.opRmod_eq F a b
  | lt | lte | gt | gte => exact absurd hop (by decide)

end Op

section

variable {O : Type} {F : Floats} {objects : Objects O} {op : Op} {same : O → O → Bool}

/-! ### Numbers and conversions -/

/-- A literal as the plain integer that it stands for. -/
def Value.plain : Value O → Value O
  | .object (.verbatimInt v _) => .fromInt v
  | v => v

/-- The same result, literals counting as plain integers, or the same error. -/
def Same (a b : Except OpError (Value O)) : Prop :=
  a.map Value.plain = b.map Value.plain

/-- The number of a value that is one. -/
def Value.number : Value O → Option Prim
  | .prim p => some p
  | .object (.int v) | .object (.verbatimInt v _) => some (.int v)
  | .object (.f64 v) | .object (.verbatimF64 v _) => some (.f64 v)
  | .object (.other _) => none

theorem Value.toPrim_of_number {w : Value O} {p : Prim} (h : w.number = some p) :
    w.toPrim objects = .ok p := by
  match w, h with
  | .prim _, h => exact congrArg _ (Option.some.inj h)
  | .object (.int _), h => exact congrArg _ (Option.some.inj h)
  | .object (.verbatimInt _ _), h => exact congrArg _ (Option.some.inj h)
  | .object (.f64 _), h => exact congrArg _ (Option.some.inj h)
  | .object (.verbatimF64 _ _), h => exact congrArg _ (Option.some.inj h)

/-- A primitive operator of values. -/
def converted (op : Prim → Prim → Except OpError Prim) (a b : Prim) : Except OpError (Value O) :=
  (op a b).map .fromPrim

theorem binop_eq {w : Value O} {p : Prim} (h : w.number = some p) (a : Prim)
    (op : Prim → Prim → Except OpError Prim) : binop objects a w op = converted op a p := by
  rw [binop, w.toPrim_of_number h, OpError.ok_bind, converted]
  cases op a p <;> rfl

theorem rbinop_eq {w : Value O} {p : Prim} (h : w.number = some p) (a : Prim)
    (op : Prim → Prim → Except OpError Prim) : rbinop objects a w op = converted op p a := by
  rw [rbinop, w.toPrim_of_number h, OpError.ok_bind, converted]
  cases op p a <;> rfl

/-- The order or equality of a number is the order with equality. -/
theorem numberLte_eq (a : Prim) (w : Value O) (h : a.IsInt ∨ ∃ v, w.number = some (.int v)) :
    numberLte objects a w = binop objects a w Prim.opLte := by
  rw [numberLte, numberLt, binop, binop, numberEq]
  cases hp : w.toPrim objects with
  | error e => rfl
  | ok p =>
    have hint : a.IsInt ∨ p.IsInt := by
      refine h.imp id fun ⟨v, hv⟩ => ⟨v, ?_⟩
      exact Except.ok.inj (hp.symm.trans (w.toPrim_of_number hv))
    simp only [OpError.ok_bind, Prim.opLte_eq hint]
    cases hlt : Prim.opLt a p with
    | error e => rfl
    | ok lt =>
      obtain ⟨l, rfl⟩ := Prim.opLt_bool hlt
      cases l <;> rfl

theorem opLtDirect_eq {w x : Value O} {a b : Prim} (hw : w.number = some a)
    (hx : x.number = some b) : opLtDirect objects w x = converted Prim.opLt a b := by
  match w, hw with
  | .prim _, hw =>
    obtain rfl := Option.some.inj hw
    exact binop_eq hx _ _
  | .object (.int _), hw => exact Option.some.inj hw ▸ binop_eq hx _ _
  | .object (.verbatimInt _ _), hw => exact Option.some.inj hw ▸ binop_eq hx _ _
  | .object (.f64 _), hw => exact Option.some.inj hw ▸ binop_eq hx _ _
  | .object (.verbatimF64 _ _), hw => exact Option.some.inj hw ▸ binop_eq hx _ _

theorem numberLte_converted {x : Value O} {a b : Prim} (hx : x.number = some b)
    (h : a.IsInt ∨ b.IsInt) : numberLte objects a x = converted Prim.opLte a b := by
  have hint : a.IsInt ∨ ∃ v, x.number = some (.int v) := by
    refine h.imp id fun ⟨v, hv⟩ => ⟨v, ?_⟩
    rw [hx, hv]
  exact (numberLte_eq a x hint).trans (binop_eq hx _ _)

theorem opLteDirect_eq {w x : Value O} {a b : Prim} (hw : w.number = some a)
    (hx : x.number = some b) (h : a.IsInt ∨ b.IsInt) :
    opLteDirect objects w x = converted Prim.opLte a b := by
  match w, hw with
  | .prim _, hw =>
    obtain rfl := Option.some.inj hw
    exact binop_eq hx _ _
  | .object (.int _), hw =>
    obtain rfl := Option.some.inj hw
    exact numberLte_converted hx h
  | .object (.verbatimInt _ _), hw =>
    obtain rfl := Option.some.inj hw
    exact numberLte_converted hx h
  | .object (.f64 _), hw =>
    obtain rfl := Option.some.inj hw
    exact numberLte_converted hx h
  | .object (.verbatimF64 _ _), hw =>
    obtain rfl := Option.some.inj hw
    exact numberLte_converted hx h

/-! ### Handlers on numbers -/

variable {w : Value O} {p : Prim} {v : Integer} {f : F64}

theorem converted_opGt (a b : Prim) :
    (converted Prim.opGt a b : Except OpError (Value O)) = converted Prim.opLt b a := by
  rw [converted, Prim.opGt_eq, converted]

theorem converted_opGte (a b : Prim) :
    (converted Prim.opGte a b : Except OpError (Value O)) = converted Prim.opLte b a := by
  rw [converted, Prim.opGte_eq, converted]

theorem intForward_eq (h : w.number = some p) :
    intForward F objects v w op = converted (op.prim F) (.int v) p := by
  cases op with
  | lte => exact numberLte_converted h (.inl ⟨v, rfl⟩)
  | gt => exact (opLtDirect_eq h rfl).trans (converted_opGt _ _).symm
  | gte => exact (opLteDirect_eq h rfl (.inr ⟨v, rfl⟩)).trans (converted_opGte _ _).symm
  | _ => exact binop_eq h _ _

theorem verbatimForward_eq (text : String) (h : w.number = some p) :
    verbatimForward F objects v text w op = converted (op.prim F) (.int v) p := by
  cases op with
  | lte => exact numberLte_converted h (.inl ⟨v, rfl⟩)
  | gt => exact (opLtDirect_eq h rfl).trans (converted_opGt _ _).symm
  | gte => exact (opLteDirect_eq h rfl (.inr ⟨v, rfl⟩)).trans (converted_opGte _ _).symm
  | _ => exact binop_eq h _ _

/-- A symmetric operator, computed in the other direction. -/
theorem binop_symmetric (hF : Commutes F) (op : Op) (hop : op.isSymmetric) (h : w.number = some p) (a : Prim) :
    binop objects a w (op.prim F) = converted (op.prim F) p a := by
  rw [binop_eq h, converted, converted, Op.prim_comm hF op hop]

theorem intReflected_eq (hF : Commutes F) (h : w.number = some p) :
    intReflected F objects v w op = converted (op.prim F) p (.int v) := by
  cases op with
  | band => exact binop_symmetric hF .band rfl h _
  | bor => exact binop_symmetric hF .bor rfl h _
  | bxor => exact binop_symmetric hF .bxor rfl h _
  | add => exact binop_symmetric hF .add rfl h _
  | mul => exact binop_symmetric hF .mul rfl h _
  | shl | shr | sub | div | ediv | mod => exact rbinop_eq h _ _
  | lt => exact opLtDirect_eq h rfl
  | lte => exact opLteDirect_eq h rfl (.inr ⟨v, rfl⟩)
  | gt => exact (binop_eq h _ _).trans (converted_opGt _ _).symm
  | gte => exact (numberLte_converted h (.inl ⟨v, rfl⟩)).trans (converted_opGte _ _).symm

/-- The handlers of a literal on the right compute the operator, but for the shifts. -/
theorem verbatimReflected_eq (hF : Commutes F) (text : String) (h : w.number = some p)
    (hop : op.isShift = false) :
    verbatimReflected F objects v text w op = converted (op.prim F) p (.int v) := by
  cases op with
  | band => exact binop_symmetric hF .band rfl h _
  | bor => exact binop_symmetric hF .bor rfl h _
  | bxor => exact binop_symmetric hF .bxor rfl h _
  | add => exact binop_symmetric hF .add rfl h _
  | mul => exact binop_symmetric hF .mul rfl h _
  | sub | div | ediv | mod => exact rbinop_eq h _ _
  | lt => exact opLtDirect_eq h rfl
  | lte => exact opLteDirect_eq h rfl (.inr ⟨v, rfl⟩)
  | gt => exact (binop_eq h _ _).trans (converted_opGt _ _).symm
  | gte => exact (numberLte_converted h (.inl ⟨v, rfl⟩)).trans (converted_opGte _ _).symm
  | shl | shr => exact absurd hop (by decide)

/-- They shift the literal by the other operand. -/
theorem verbatimReflected_shift (text : String) (h : w.number = some p) (hop : op.isShift) :
    verbatimReflected F objects v text w op = converted (op.prim F) (.int v) p := by
  cases op with
  | shl | shr => exact binop_eq h _ _
  | _ => exact absurd hop Bool.false_ne_true

/-- The handlers of a float next to an integer. -/
theorem floatForward_eq {this : Obj O} (hthis : (Value.object this).number = some (.f64 f))
    (h : w.number = some (.int v)) (hop : op.isBits = false) :
    floatForward F objects this f w op = converted (op.prim F) (.f64 f) (.int v) := by
  cases op with
  | lte => exact numberLte_converted h (.inr ⟨v, rfl⟩)
  | gt => exact (opLtDirect_eq h hthis).trans (converted_opGt _ _).symm
  | gte =>
    exact (opLteDirect_eq h hthis (.inl ⟨v, rfl⟩)).trans (converted_opGte _ _).symm
  | add | sub | mul | div | ediv | mod | lt => exact binop_eq h _ _
  | band | bor | bxor | shl | shr => exact absurd hop (by decide)

theorem floatReflected_eq (hF : Commutes F) {this : Obj O}
    (hthis : (Value.object this).number = some (.f64 f)) (h : w.number = some (.int v))
    (hop : op.isBits = false) :
    floatReflected F objects this f w op = converted (op.prim F) (.int v) (.f64 f) := by
  cases op with
  | add => exact binop_symmetric hF .add rfl h _
  | mul => exact binop_symmetric hF .mul rfl h _
  | sub | div | ediv | mod => exact rbinop_eq h _ _
  | lt => exact opLtDirect_eq h hthis
  | lte => exact opLteDirect_eq h hthis (.inl ⟨v, rfl⟩)
  | gt => exact (binop_eq h _ _).trans (converted_opGt _ _).symm
  | gte => exact (numberLte_converted h (.inr ⟨v, rfl⟩)).trans (converted_opGte _ _).symm
  | band | bor | bxor | shl | shr => exact absurd hop (by decide)

theorem floatForward_bits (this : Obj O) (w : Value O) (hop : op.isBits) :
    ∃ msg, floatForward F objects this f w op = .error (.unsupported msg) := by
  cases op with
  | band | bor | bxor | shl | shr => exact ⟨_, rfl⟩
  | _ => exact absurd hop Bool.false_ne_true

theorem floatReflected_bits (this : Obj O) (w : Value O) (hop : op.isBits) :
    ∃ msg, floatReflected F objects this f w op = .error (.unsupported msg) := by
  cases op with
  | band | bor | bxor | shl | shr => exact ⟨_, rfl⟩
  | _ => exact absurd hop Bool.false_ne_true

/-! ### Operators on numbers -/

theorem settle_converted (a b : Prim) :
    settle (converted (op.prim F) a b : Except OpError (Value O)) = converted (op.prim F) a b := by
  have hsupported := op.prim_supported (F := F) a b
  rw [converted]
  cases h : op.prim F a b with
  | ok p => rfl
  | error e =>
    cases e with
    | unsupported msg => exact absurd h (hsupported msg)
    | _ => rfl

theorem orElse_converted (a b : Prim) (res : Except OpError (Value O)) :
    orElse (converted (op.prim F) a b) res = converted (op.prim F) a b := by
  have hsupported := op.prim_supported (F := F) a b
  rw [converted]
  cases h : op.prim F a b with
  | ok p => rfl
  | error e =>
    cases e with
    | unsupported msg => exact absurd h (hsupported msg)
    | _ => rfl

/-- A conversion is either made or refused, and the operator is supported then. -/
theorem settled_binop (op : Op) (a : Prim) (w : Value O) (res : Except OpError (Value O)) :
    settle (binop objects a w (op.prim F)) = binop objects a w (op.prim F) ∧
      orElse (binop objects a w (op.prim F)) res = binop objects a w (op.prim F) := by
  cases hw : w.number with
  | some p =>
    rw [binop_eq hw]
    exact ⟨settle_converted a p, orElse_converted a p res⟩
  | none =>
    match w, hw with
    | .object (.other o), _ =>
      rw [binop, Value.toPrim]
      cases objects.toPrim o with
      | none => exact ⟨rfl, rfl⟩
      | some p =>
        have hbind : (do
            let value ← op.prim F a p
            return Value.fromPrim value : Except OpError (Value O)) = converted (op.prim F) a p := by
          rw [converted]
          cases op.prim F a p <;> rfl
        rw [orError, OpError.ok_bind, hbind]
        exact ⟨settle_converted a p, orElse_converted a p res⟩

theorem op_prims (a b : Prim) :
    Value.op F objects op (.prim a) (.prim b) = converted (op.prim F) a b :=
  settle_converted a b

/-- An object that computes the operator is asked first. -/
theorem op_of_forward {n : Obj O} {a : Prim} (h : w.number = some p)
    (hn : n.forward F objects w op = converted (op.prim F) a p) :
    Value.op F objects op (.object n) w = converted (op.prim F) a p := by
  match w, h with
  | .prim _, _ =>
    rw [Value.op, hn]
    exact settle_converted a p
  | .object _, _ =>
    rw [Value.op, hn, orElse_converted]
    exact settle_converted a p

theorem op_int (n : Integer) (h : w.number = some p) :
    Value.op F objects op (.object (.int n)) w = converted (op.prim F) (.int n) p :=
  op_of_forward h (intForward_eq h)

theorem op_verbatim (n : Integer) (text : String) (h : w.number = some p) :
    Value.op F objects op (.object (.verbatimInt n text)) w = converted (op.prim F) (.int n) p :=
  op_of_forward h (verbatimForward_eq text h)

/-- A plain integer on the right of an integer or of a number in a word. -/
theorem op_fromInt_right (hF : Commutes F) (a : Prim) (v : Integer) :
    Value.op F objects op (.prim a) (.fromInt v) = converted (op.prim F) a (.int v) := by
  rw [Value.fromInt]
  split_ifs
  · exact op_prims a _
  · rw [Value.op, Obj.reflected, intReflected_eq hF rfl]
    exact settle_converted a _

/-! ### Telling results apart -/

@[simp]
theorem plain_fromInt (v : Integer) : (Value.fromInt v : Value O).plain = .fromInt v := by
  rw [Value.fromInt]
  split_ifs <;> rfl

theorem fromInt_inj {a b : Integer} (h : (Value.fromInt a : Value O) = .fromInt b) : a = b := by
  rw [Value.fromInt, Value.fromInt] at h
  split_ifs at h
  · exact Prim.int.inj (Value.prim.inj h)
  · exact Obj.int.inj (Value.object.inj h)

/-- A shift gives an integer. -/
theorem shift_isInt (hop : op.isShift) {a b q : Prim} (h : op.prim F a b = .ok q) : q.IsInt := by
  have hshift : ∀ {f : Integer → ℕ → Integer} {side : String}, Prim.shift f side a b = .ok q →
      q.IsInt := by
    intro f side h
    cases b with
    | int n =>
      by_cases hn : 0 ≤ n.toInt ∧ n.toInt < 128
      · cases a with
        | int v =>
          rw [Prim.shift, if_pos hn, OpError.ok_bind] at h
          exact ⟨_, (Except.ok.inj h).symm⟩
        | _ => simp [Prim.shift, hn] at h
      · simp [Prim.shift, hn] at h
    | _ => simp [Prim.shift] at h
  cases op with
  | shl | shr => exact hshift h
  | _ => exact absurd hop Bool.false_ne_true

/-- Shifts give the same exactly when they are the same. -/
theorem same_shift_iff (hop : op.isShift) {a b c d : Prim} :
    Same (converted (op.prim F) a b : Except OpError (Value O)) (converted (op.prim F) c d) ↔
      op.prim F a b = op.prim F c d := by
  refine ⟨fun h => ?_, fun h => by rw [Same, converted, converted, h]⟩
  rw [Same, converted, converted] at h
  cases hx : op.prim F a b with
  | error e =>
    cases hy : op.prim F c d with
    | error e' =>
      rw [hx, hy] at h
      exact congrArg _ (Except.error.inj h)
    | ok q =>
      rw [hx, hy] at h
      exact nomatch h
  | ok q =>
    cases hy : op.prim F c d with
    | error e =>
      rw [hx, hy] at h
      exact nomatch h
    | ok q' =>
      obtain ⟨i, rfl⟩ := shift_isInt hop hx
      obtain ⟨j, rfl⟩ := shift_isInt hop hy
      rw [hx, hy] at h
      have hplain := Except.ok.inj h
      rw [Value.fromPrim, Value.fromPrim, plain_fromInt, plain_fromInt] at hplain
      rw [fromInt_inj hplain]

/-- What nothing supports is told apart from what the primitive operator refuses. -/
theorem bits_refused (hop : op.isBits) (v : Integer) (f : F64) {a b : Prim}
    (h : a = .int v ∧ b = .f64 f ∨ a = .f64 f ∧ b = .int v ∧ op.isShift = false) :
    ∃ msg, msg ≠ "no overload available" ∧ op.prim F a b = .error (.typeError msg) := by
  rcases h with ⟨rfl, rfl⟩ | ⟨rfl, rfl, hshift⟩
  · cases op with
    | band | bor | bxor | shl | shr => exact ⟨_, by decide, rfl⟩
    | _ => exact absurd hop Bool.false_ne_true
  · cases op with
    | band | bor | bxor => exact ⟨_, by decide, rfl⟩
    | shl | shr => exact absurd hshift (by decide)
    | _ => exact absurd hop Bool.false_ne_true

end

end Operator

end Dolang.Runtime
