import LineCalc.Proofs.Expr.Soundness

/-!
# What is derived is read

Reading the tokens of a derived tree leaves the reader in a state that cannot be told apart from the
one with the whole tree as its operand, once operators as loose as the tree's own are settled. The
state is not that one, since a tree may still be spread over frames.
-/

namespace LineCalc.Expr

namespace Frame

@[simp] theorem settle_negation (ready : Operator → Bool) (context : List Frame) (e : Expr) :
    settle ready (.negation :: context) e = settle ready context (.negate e) := by
  rw [settle]

@[simp] theorem settle_group (ready : Operator → Bool) (position : Nat) (context : List Frame)
    (e : Expr) :
    settle ready (.group position :: context) e = (.group position :: context, e) := by
  rw [settle] <;> simp

theorem settle_left {ready : Operator → Bool} {op : Operator} (h : ready op = true) (l : Expr)
    (context : List Frame) (e : Expr) :
    settle ready (.left l op :: context) e = settle ready context (.binary op l e) := by
  rw [settle, if_pos h]

/-- A context that takes what an operator makes leaves the left operand to the operator. -/
theorem settle_of_level_le {op : Operator} {context : List Frame}
    (h : op.level ≤ levelAt context) (e : Expr) :
    settle (·.groupsBefore op) context e = (context, e) := by
  cases context with
  | nil => rw [settle] <;> simp
  | cons frame rest =>
      cases frame with
      | negation => exact absurd (show op.level ≤ Level.atom from h) (by cases op <;> decide)
      | left l before =>
          rw [settle, if_neg (by simpa using (before.not_groupsBefore_iff op).mpr h)]
      | group position => exact settle_group _ position rest e

end Frame

/-- From any context that takes the level, the tokens are read to a state that settles like the
context with the whole tree as its operand. -/
def ReadsAs (level : Level) (e : Expr) : Prop :=
  ∀ (context : List Frame) (ts : List Located), level ≤ levelAt context →
    ts.map Located.token = e.tokens →
    ∃ context' operand, ts.foldlM Reading.step (.beforeOperand context) =
        .ok (.afterOperand context' operand) ∧
      ∀ ready : Operator → Bool, (∀ op, op.level ≤ level → ready op = true) →
        Frame.settle ready context' operand = Frame.settle ready context e

theorem ReadsAs.mono {a b : Level} {e : Expr} (h : ReadsAs a e) (hab : a ≤ b) : ReadsAs b e := by
  intro context ts hlevel hts
  obtain ⟨context', operand, hrun, hsettle⟩ := h context ts (Level.le_trans hab hlevel) hts
  exact ⟨context', operand, hrun, fun ready hready =>
    hsettle ready fun op hop => hready op (Level.le_trans hop hab)⟩

/-! ## The rules of the grammar -/

theorem literal_readsAs (l : Literal) : ReadsAs .atom (.literal l) := by
  intro context ts _ hts
  obtain ⟨⟨token, position⟩, rest, rfl, rfl, hrest⟩ := List.map_eq_cons_iff.mp hts
  obtain rfl := List.map_eq_nil_iff.mp hrest
  exact ⟨context, .literal l, rfl, fun _ _ => rfl⟩

theorem var_readsAs (name : String) : ReadsAs .atom (.var name) := by
  intro context ts _ hts
  obtain ⟨⟨token, position⟩, rest, rfl, rfl, hrest⟩ := List.map_eq_cons_iff.mp hts
  obtain rfl := List.map_eq_nil_iff.mp hrest
  exact ⟨context, .var name, rfl, fun _ _ => rfl⟩

theorem group_readsAs {e : Expr} (h : ReadsAs .sum e) : ReadsAs .atom (.group e) := by
  intro context ts _ hts
  obtain ⟨⟨opening, position⟩, rest, rfl, rfl, hrest⟩ := List.map_eq_cons_iff.mp hts
  obtain ⟨inner, last, rfl, hinner, hlast⟩ := List.map_eq_append_iff.mp hrest
  obtain ⟨⟨closing, _⟩, after, rfl, rfl, hafter⟩ := List.map_eq_cons_iff.mp hlast
  obtain rfl := List.map_eq_nil_iff.mp hafter
  obtain ⟨context', operand, hrun, hsettle⟩ :=
    h (.group position :: context) inner (Level.le_sum _) hinner
  refine ⟨context, .group e, ?_, fun _ _ => rfl⟩
  -- The closing parenthesis settles everything inside, and the group stops it there.
  have hclose := hsettle (fun _ => true) fun _ _ => rfl
  rw [Frame.settle_group] at hclose
  have hstart : Reading.step (.beforeOperand context) ⟨.symbol .opening, position⟩ =
      .ok (.beforeOperand (.group position :: context)) := rfl
  rw [List.foldlM_cons, hstart, ok_bind, List.foldlM_append, hrun, ok_bind]
  simp only [List.foldlM_cons, List.foldlM_nil, Reading.step, Reading.continueOperand, hclose]
  rfl

theorem negate_readsAs {e : Expr} (h : ReadsAs .atom e) : ReadsAs .operand (.negate e) := by
  intro context ts hlevel hts
  obtain ⟨⟨minus, position⟩, rest, rfl, rfl, hrest⟩ := List.map_eq_cons_iff.mp hts
  obtain ⟨context', operand, hrun, hsettle⟩ :=
    h (.negation :: context) rest (Level.atom_le _) hrest
  have hstart : Reading.step (.beforeOperand context) ⟨.symbol (.operator .sub), position⟩ =
      .ok (.beforeOperand (.negation :: context)) := by
    cases context with
    | nil => rfl
    | cons frame rest =>
        cases frame with
        | negation => exact absurd (show Level.operand ≤ Level.atom from hlevel) (by decide)
        | left l op => rfl
        | group position => rfl
  refine ⟨context', operand, ?_, fun ready hready => ?_⟩
  · rw [List.foldlM_cons, hstart, ok_bind, hrun]
  · rw [hsettle ready fun op hop => hready op (Level.le_trans hop (Level.atom_le _)),
      Frame.settle_negation]

theorem binary_readsAs (op : Operator) {l r : Expr} (hl : ReadsAs op.leftLevel l)
    (hr : ReadsAs op.rightLevel r) : ReadsAs op.level (.binary op l r) := by
  intro context ts hlevel hts
  obtain ⟨left, rest, rfl, hleft, hrest⟩ := List.map_eq_append_iff.mp hts
  obtain ⟨⟨sign, position⟩, right, rfl, rfl, hright⟩ := List.map_eq_cons_iff.mp hrest
  obtain ⟨context₁, operand₁, hrun₁, hsettle₁⟩ :=
    hl context left (Level.le_trans op.leftLevel_le_level hlevel) hleft
  obtain ⟨context₂, operand₂, hrun₂, hsettle₂⟩ :=
    hr (.left l op :: context) right (Level.le_refl _) hright
  -- The operator settles what is left of it down to its own left operand, and no further.
  have hbefore := hsettle₁ (·.groupsBefore op) fun o ho => (o.groupsBefore_iff op).mpr ho
  rw [Frame.settle_of_level_le hlevel] at hbefore
  refine ⟨context₂, operand₂, ?_, fun ready hready => ?_⟩
  · have hsign : Reading.step (.afterOperand context₁ operand₁) ⟨.symbol (.operator op), position⟩ =
        .ok (.beforeOperand (.left l op :: context)) := by
      simp only [Reading.step, Reading.continueOperand, hbefore]
    rw [List.foldlM_append, hrun₁, ok_bind, List.foldlM_cons, hsign, ok_bind, hrun₂]
  · rw [hsettle₂ ready fun o ho => hready o (Level.le_trans ho op.rightLevel_le_level),
      Frame.settle_left (hready op (Level.le_refl _))]

theorem Shaped.readsAs {level : Level} {e : Expr} (h : Shaped level e) : ReadsAs level e := by
  induction h with
  | literal l => exact literal_readsAs l
  | var name => exact var_readsAs name
  | group _ ih => exact group_readsAs ih
  | atom _ ih => exact ih.mono (by decide)
  | negate _ ih => exact negate_readsAs ih
  | operand _ ih => exact ih.mono (by decide)
  | pow _ _ ihl ihr => exact binary_readsAs .pow ihl ihr
  | power _ ih => exact ih.mono (by decide)
  | mul _ _ ihl ihr => exact binary_readsAs .mul ihl ihr
  | div _ _ ihl ihr => exact binary_readsAs .div ihl ihr
  | term _ ih => exact ih.mono (by decide)
  | add _ _ ihl ihr => exact binary_readsAs .add ihl ihr
  | sub _ _ ihl ihr => exact binary_readsAs .sub ihl ihr

/-- Every expression that the grammar derives is read from its tokens, wherever they stand. -/
theorem ofTokens_complete {ts : List Located} {e : Expr} (h : Shaped .sum e)
    (hts : ts.map Located.token = e.tokens) : ofTokens ts = .ok e := by
  obtain ⟨context, operand, hrun, hsettle⟩ := h.readsAs [] ts (Level.le_refl _) hts
  have hfinish := hsettle (fun _ => true) fun _ _ => rfl
  have hnil : Frame.settle (fun _ => true) [] e = ([], e) := by rw [Frame.settle] <;> simp
  rw [hnil] at hfinish
  rw [ofTokens, hrun, ok_bind]
  simp only [Reading.finish, hfinish]

end LineCalc.Expr
