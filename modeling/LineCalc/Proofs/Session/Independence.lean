import LineCalc.Proofs.Expr.Substitution
import LineCalc.Proofs.Session.History
import LineCalc.Proofs.Session.Reply

/-!
# Lines that can be exchanged

A line takes nothing from a table but the bindings of the names in it, and it changes nothing but the
binding of the name that it assigns to. So two lines of which neither mentions the name that the other
one assigns to can be entered in either order.
-/

namespace LineCalc

/-- The name that a token is. -/
def Token.name? : Token → Option String
  | .name n => some n
  | _ => none

namespace Session

/-- The names in a line, which has none if it cannot be split into tokens. -/
def identifiers (source : String) : List String :=
  match Token.ofLine source with
  | .ok tokens => tokens.filterMap (·.token.name?)
  | .error _ => []

/-- The name that a line assigns to. -/
def target? (source : String) : Option String :=
  match statement? source with
  | some (.assignment name _) => some name
  | _ => none

/-- Neither line mentions the name that the other one assigns to. -/
def Independent (p q : String) : Prop :=
  (∀ name ∈ target? p, name ∉ identifiers q) ∧ ∀ name ∈ target? q, name ∉ identifiers p

instance (p q : String) : Decidable (Independent p q) := inferInstanceAs (Decidable (_ ∧ _))

/-- What a line shows: its value, and the value in digits. -/
def Reply.shown (r : Reply) : Option Number × Option String := (r.value, r.text)

variable {t u table : SymbolTable} {p q source name : String}

theorem Independent.symm (h : Independent p q) : Independent q p := ⟨h.2, h.1⟩

/-! ## The names in a line -/

theorem mem_identifiers {tokens : List Located} (hline : Token.ofLine source = .ok tokens)
    (h : .name name ∈ tokens.map Located.token) : name ∈ identifiers source := by
  obtain ⟨t, ht, htoken⟩ := List.mem_map.mp h
  rw [identifiers, hline]
  exact List.mem_filterMap.mpr ⟨t, ht, by rw [htoken]; rfl⟩

theorem mem_identifiers_of_mem_vars {statement : Statement}
    (h : statement? source = some statement) (hname : name ∈ statement.body.vars) :
    name ∈ identifiers source := by
  obtain ⟨tokens, hline, hparse⟩ := statement?_eq_some_iff.mp h
  exact mem_identifiers hline (Statement.body_tokens_subset hparse (Expr.mem_vars_iff.mp hname))

theorem target?_eq_some_iff :
    target? source = some name ↔ ∃ e, statement? source = some (.assignment name e) := by
  unfold target?
  split
  · rename_i target e h
    simp [h]
  · rename_i hno
    exact ⟨nofun, fun ⟨e, h⟩ => absurd h (hno name e)⟩

theorem mem_identifiers_of_target? (h : target? source = some name) : name ∈ identifiers source := by
  obtain ⟨e, h⟩ := target?_eq_some_iff.mp h
  obtain ⟨tokens, hline, hparse⟩ := statement?_eq_some_iff.mp h
  refine mem_identifiers hline ?_
  rw [(Statement.ofTokens_eq_assignment_iff.mp hparse).1]
  exact List.mem_cons_self

/-! ## What a line takes from the table -/

theorem shown_of_statement? {statement : Statement} (h : statement? source = some statement) :
    (reply table source).map Reply.shown =
      ((statement.body.eval table).mapError .eval).map fun value => (some value, some value.text) := by
  cases statement with
  | assignment target e =>
      rw [reply_of_assignment h, Statement.body]
      cases e.eval table <;> rfl
  | expression e =>
      rw [reply_of_expression h, Statement.body]
      cases e.eval table <;> rfl

theorem shown_congr (h : ∀ name ∈ identifiers source, t.get? name = u.get? name) :
    (reply t source).map Reply.shown = (reply u source).map Reply.shown := by
  cases hs : statement? source with
  | none =>
      rcases reply_of_statement?_eq_none hs with hblank | ⟨failure, hfailure⟩
      · rw [hblank, hblank]
        rfl
      · rw [hfailure, hfailure]
  | some statement =>
      rw [shown_of_statement? hs, shown_of_statement? hs,
        Expr.eval_congr fun name hname => h name (mem_identifiers_of_mem_vars hs hname)]

/-! ## What a line changes in the table -/

/-- What a line binds is the name that it assigns to, and what it shows. -/
theorem assignment?_eq (table : SymbolTable) (source : String) :
    assignment? table source = match target? source, (reply table source).map Reply.shown with
      | some name, .ok (some value, _) => some (name, value)
      | _, _ => none := by
  unfold assignment? target?
  cases statement? source with
  | none => rfl
  | some statement =>
      cases statement with
      | expression e => rfl
      | assignment name e =>
          rcases reply table source with ⟨_ | value, after⟩ | failure | _ <;> rfl

theorem assignment?_congr (h : ∀ name ∈ identifiers source, t.get? name = u.get? name) :
    assignment? t source = assignment? u source := by
  rw [assignment?_eq, assignment?_eq, shown_congr h]

theorem target?_of_mem_assignment? {b : String × Number}
    (h : b ∈ (assignment? table source).toList) : target? source = some b.1 := by
  rw [Option.mem_toList, assignment?_eq] at h
  split at h
  · rename_i htarget _
    cases h
    exact htarget
  · cases h

theorem get?_afterLine (h : target? source ≠ some name) :
    (afterLine table source).get? name = table.get? name := by
  rw [afterLine_eq_insertMany, SymbolTable.get?_insertMany,
    SymbolTable.lookup_reverse_eq_none, Option.none_or]
  rintro b hb rfl
  exact h (target?_of_mem_assignment? hb)

/-! ## Lines in either order -/

namespace Independent

theorem get?_afterLine (h : Independent p q) :
    ∀ name ∈ identifiers q, (afterLine table p).get? name = table.get? name :=
  fun name hname => Session.get?_afterLine fun htarget => h.1 name htarget hname

theorem afterLines_eq_insertMany (h : Independent p q) :
    afterLines table [p, q] =
      table.insertMany ((assignment? table p).toList ++ (assignment? table q).toList) := by
  rw [Session.afterLines_eq_insertMany, history, history, history, assignment?_congr h.get?_afterLine,
    List.append_nil]

theorem names_ne (h : Independent p q) :
    ∀ b ∈ (assignment? table p).toList, ∀ c ∈ (assignment? table q).toList, b.1 ≠ c.1 := by
  intro b hb c hc heq
  refine h.1 b.1 (target?_of_mem_assignment? hb) ?_
  rw [heq]
  exact mem_identifiers_of_target? (target?_of_mem_assignment? hc)

end Independent

/-- In either order, each of the two lines shows the same or fails in the same way, and the same names
are bound to the same numbers. Only names that are new can be in another order. -/
theorem independent_lines_commute (ht : table.Distinct) (h : Independent p q) :
    (∃ first second,
      (replies table [p, q]).map (Result.map Reply.shown) = [first, second] ∧
      (replies table [q, p]).map (Result.map Reply.shown) = [second, first]) ∧
    (afterLines table [p, q]).Distinct ∧ (afterLines table [q, p]).Distinct ∧
    (∀ name, (afterLines table [p, q]).get? name = (afterLines table [q, p]).get? name) ∧
    ∃ new new', (afterLines table [p, q]).names = table.names ++ new ∧
      (afterLines table [q, p]).names = table.names ++ new' ∧ new.Perm new' := by
  have hfirst : (reply (afterLine table q) p).map Reply.shown = (reply table p).map Reply.shown :=
    shown_congr h.symm.get?_afterLine
  have hsecond : (reply (afterLine table p) q).map Reply.shown = (reply table q).map Reply.shown :=
    shown_congr h.get?_afterLine
  refine ⟨⟨_, _, rfl, ?_⟩, ?_⟩
  · simp only [replies, List.map_cons, List.map_nil, hfirst, hsecond]
  · rw [h.afterLines_eq_insertMany, h.symm.afterLines_eq_insertMany]
    exact ⟨ht.insertMany _, ht.insertMany _,
      SymbolTable.get?_insertMany_append_comm table _ h.names_ne,
      ht.names_insertMany_append_comm _ _⟩

/-- Two new names that come in the order of the lines, the second from a name that the first has not. -/
theorem independent_lines_commute_new :
    let table : SymbolTable := ⟨[("a", .integer 3), ("b", .integer 1)]⟩
    table.Distinct ∧ Independent "x = a / 2" "y = b ^ 2" ∧
      (afterLines table ["x = a / 2", "y = b ^ 2"]).names = ["a", "b", "x", "y"] ∧
      (afterLines table ["y = b ^ 2", "x = a / 2"]).names = ["a", "b", "y", "x"] ∧
      ∀ name, (afterLines table ["x = a / 2", "y = b ^ 2"]).get? name =
        (afterLines table ["y = b ^ 2", "x = a / 2"]).get? name := by
  intro table
  have ht : table.Distinct := by decide
  have h : Independent "x = a / 2" "y = b ^ 2" := by decide +kernel
  exact ⟨ht, h, by decide +kernel, by decide +kernel, (independent_lines_commute ht h).2.2.2.1⟩

end Session

end LineCalc
