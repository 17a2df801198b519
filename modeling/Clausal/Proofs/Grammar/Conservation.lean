import Mathlib
import Clausal.Grammar.Cursor

/-!
What becomes of the items under a cursor, whatever is done with it. A step that meets an error of
the lexer drops the error and keeps the token that it was to step over, so the token is still there
for the next step: each token is handed out once and each error is answered once, in their order. An
operation that is refused because another token stands there, or none, changes nothing.
-/

namespace Clausal

def Token.Item.tokens (items : List Token.Item) : List Token := items.filterMap Except.toOption

def Token.Item.mistakes (items : List Token.Item) : List LexError :=
  items.filterMap fun
    | .ok _ => none
    | .error x => some x

namespace Cursor

open Token.Item (tokens mistakes)

/-- What can be done with a cursor by those who do not look into it. -/
inductive Operation
  | peek
  | check (kind : Token.Kind)
  | checkAny (kinds : List Token.Kind)
  | checkText (kind : Token.Kind) (text : String)
  | consume
  | eat (kind : Token.Kind)
  | expect (kind : Token.Kind)
  | expectText (kind : Token.Kind) (text : String)

inductive Answer
  | shown (current : Option Token)
  | told (holds : Bool)
  /-- Whether the current token was stepped over. -/
  | eaten (found : Bool)
  | handed (t : Token)

/-- The answer of an operation and the cursor after it, also where the operation fails. -/
def perform (c : Cursor) : Operation → Except ParseError Answer × Cursor
  | .peek => (.ok (.shown c.current), c)
  | .check kind => (.ok (.told (c.check kind)), c)
  | .checkAny kinds => (.ok (.told (c.checkAny kinds)), c)
  | .checkText kind text => (.ok (.told (c.checkText kind text)), c)
  | .consume => c.consume.map (Except.map .handed) id
  | .eat kind => (c.eat kind).map (Except.map .eaten) id
  | .expect kind => (c.expect kind).map (Except.map .handed) id
  | .expectText kind text => (c.expectText kind text).map (Except.map .handed) id

structure Step where
  before : Cursor
  result : Except ParseError Answer
  after : Cursor

/-- The token that left the cursor in a step that succeeded. -/
def Step.taken (s : Step) : List Token :=
  match s.result with
  | .ok (.handed t) => [t]
  | .ok (.eaten true) => s.before.current.toList
  | _ => []

/-- The error of the lexer that a step answered with. -/
def Step.reported (s : Step) : List LexError :=
  match s.result with
  | .error ⟨.lexical x, _, _⟩ => [x]
  | _ => []

/-- The steps of some operations, each performed on the cursor that the one before it left. -/
def steps (c : Cursor) : List Operation → List Step
  | [] => []
  | op :: ops => ⟨c, (c.perform op).1, (c.perform op).2⟩ :: (c.perform op).2.steps ops

def afterAll (c : Cursor) (ops : List Operation) : Cursor :=
  ops.foldl (fun c op => (c.perform op).2) c

/-- Between two cursors nothing is lost and nothing comes twice. -/
structure Conserves (c : Cursor) (ss : List Step) (c' : Cursor) : Prop where
  taken : ss.flatMap Step.taken ++ (c'.current.toList ++ tokens c'.pending) =
    c.current.toList ++ tokens c.pending
  reported : ss.flatMap Step.reported ++ mistakes c'.pending = mistakes c.pending
  unchanged : ∀ s ∈ ss, ∀ e, s.result = .error e → (∀ x, e.cause ≠ .lexical x) →
    s.after = s.before

variable {c c₁ c₂ : Cursor}

namespace Conserves

theorem nothing (c : Cursor) : Conserves c [] c := ⟨rfl, rfl, by simp⟩

theorem append {ss ss' : List Step} (h : Conserves c ss c₁) (h' : Conserves c₁ ss' c₂) :
    Conserves c (ss ++ ss') c₂ where
  taken := by rw [List.flatMap_append, List.append_assoc, h'.taken, h.taken]
  reported := by rw [List.flatMap_append, List.append_assoc, h'.reported, h.reported]
  unchanged s hs := (List.mem_append.mp hs).elim (h.unchanged s) (h'.unchanged s)

/-- A step that leaves the cursor as it was, hands out no token and reports no error. -/
theorem still {result : Except ParseError Answer} (htaken : Step.taken ⟨c, result, c⟩ = [])
    (hreported : Step.reported ⟨c, result, c⟩ = []) : Conserves c [⟨c, result, c⟩] c where
  taken := by rw [List.flatMap_singleton, htaken, List.nil_append]
  reported := by rw [List.flatMap_singleton, hreported, List.nil_append]
  unchanged s hs _ _ _ := by rw [List.mem_singleton.mp hs]

/-- A step that hands out the current token and leaves the items behind it. -/
theorem handed {t : Token} {answer : Answer} {c' : Cursor} (hcurrent : c.current = some t)
    (htaken : Step.taken ⟨c, .ok answer, c'⟩ = [t])
    (htokens : c'.current.toList ++ tokens c'.pending = tokens c.pending)
    (hmistakes : mistakes c'.pending = mistakes c.pending) :
    Conserves c [⟨c, .ok answer, c'⟩] c' where
  taken := by rw [List.flatMap_singleton, htaken, htokens, hcurrent, Option.toList_some]
  reported := hmistakes
  unchanged s hs e he _ := by
    rw [List.mem_singleton.mp hs] at he
    cases he

/-- A step over the current token, whose answer tells that this token is gone. -/
theorem consume (answer : Token → Answer)
    (htaken : ∀ t c', c.current = some t → Step.taken ⟨c, .ok (answer t), c'⟩ = [t]) :
    Conserves c [⟨c, c.consume.1.map answer, c.consume.2⟩] c.consume.2 := by
  obtain ⟨current, previous, pending, endOffset⟩ := c
  cases current with
  | none => exact still rfl rfl
  | some t =>
      match pending with
      | [] => exact handed rfl (htaken t _ rfl) rfl rfl
      | .ok t' :: items => exact handed rfl (htaken t _ rfl) rfl rfl
      | .error x :: items =>
          -- The error is gone, but the token is still there and was not handed out.
          refine ⟨rfl, rfl, fun s hs e he hstated => ?_⟩
          obtain rfl := List.mem_singleton.mp hs
          obtain rfl := Except.error.inj he
          exact absurd rfl (hstated x)

/-- A step that is refused. -/
theorem mismatch (kind : Token.Kind) (spelling : Option String) :
    Conserves c [⟨c, .error (c.mismatch kind spelling), c⟩] c := by
  refine still rfl ?_
  unfold Cursor.mismatch
  cases c.current <;> rfl

end Conserves

theorem perform_conserves (c : Cursor) (op : Operation) :
    Conserves c [⟨c, (c.perform op).1, (c.perform op).2⟩] (c.perform op).2 := by
  cases op with
  | peek | check | checkAny | checkText => exact .still rfl rfl
  | consume => exact .consume .handed fun _ _ _ => rfl
  | eat kind =>
      simp only [perform, eat]
      split
      · have hconsume : Conserves c _ _ := .consume (fun _ => .eaten true) fun t _ ht => by
          simp [Step.taken, ht]
        revert hconsume
        obtain ⟨result, c'⟩ := c.consume
        cases result <;> exact id
      · exact .still rfl rfl
  | expect kind =>
      simp only [perform, expect]
      split
      · exact .consume .handed fun _ _ _ => rfl
      · exact .mismatch kind none
  | expectText kind text =>
      simp only [perform, expectText]
      split
      · exact .consume .handed fun _ _ _ => rfl
      · exact .mismatch kind (some text)

theorem steps_conserve (c : Cursor) (ops : List Operation) :
    Conserves c (c.steps ops) (c.afterAll ops) := by
  induction ops generalizing c with
  | nil => exact .nothing c
  | cons op ops ih => exact (c.perform_conserves op).append (ih (c.perform op).2)

theorem left_of_ofItems {items : List Token.Item} {endOffset : Nat}
    (h : ofItems items endOffset = .ok c) :
    c.current.toList ++ tokens c.pending = tokens items ∧ mistakes c.pending = mistakes items := by
  match items with
  | [] =>
      cases h
      exact ⟨rfl, rfl⟩
  | .ok t :: items =>
      cases h
      exact ⟨rfl, rfl⟩
  | .error x :: items => cases h

/-- Whatever operations are performed on the cursor of a source, and whatever they answer: the
tokens handed out, the current one, and those still to come are the tokens of the source, and the
errors answered and those still to come are its errors. An operation that fails otherwise than by
an error of the lexer leaves the cursor as it was. -/
theorem operations_conserve {source : String} (h : ofSource source = .ok c)
    (ops : List Operation) :
    (c.steps ops).flatMap Step.taken ++ (c.afterAll ops).current.toList ++
        tokens (c.afterAll ops).pending = tokens (TokenStream.ofSource source).items ∧
      (c.steps ops).flatMap Step.reported ++ mistakes (c.afterAll ops).pending =
        mistakes (TokenStream.ofSource source).items ∧
      ∀ s ∈ c.steps ops, ∀ e, s.result = .error e → (∀ x, e.cause ≠ .lexical x) →
        s.after = s.before := by
  have hsteps := c.steps_conserve ops
  obtain ⟨htokens, hmistakes⟩ := left_of_ofItems h
  refine ⟨?_, hsteps.reported.trans hmistakes, hsteps.unchanged⟩
  rw [List.append_assoc, hsteps.taken, htokens]

/-- What follows a name: two errors, another name, and a semicolon. -/
private def laterItems : List Token.Item :=
  [.error ⟨.malformedNumber, ⟨2, 4⟩⟩, .error ⟨.unexpectedCharacter '&', ⟨5, 6⟩⟩,
    .ok ⟨.identifier, "b", ⟨7, 8⟩⟩, .ok ⟨.semicolon, ";", ⟨8, 9⟩⟩]

/-- The first name is stepped over at the third attempt: twice an error follows it. In between a
semicolon is asked for in vain, and at last the second name is stepped over. -/
private def retries : List Operation :=
  [.consume, .expect .semicolon, .eat .identifier, .peek, .expect .identifier,
    .expectText .semicolon ";", .eat .identifier]

theorem operations_conserve_retried :
    ∃ c, ofSource "a 1x & b;" = .ok c ∧
      [⟨.identifier, "a", ⟨0, 1⟩⟩, ⟨.identifier, "b", ⟨7, 8⟩⟩] ++
          [⟨.semicolon, ";", ⟨8, 9⟩⟩] ++ [] = tokens (TokenStream.ofSource "a 1x & b;").items ∧
      [⟨.malformedNumber, ⟨2, 4⟩⟩, ⟨.unexpectedCharacter '&', ⟨5, 6⟩⟩] ++ [] =
        mistakes (TokenStream.ofSource "a 1x & b;").items ∧
      ∀ s ∈ c.steps retries, ∀ e, s.result = .error e → (∀ x, e.cause ≠ .lexical x) →
        s.after = s.before := by
  have hitems : (TokenStream.ofSource "a 1x & b;").items =
      .ok ⟨.identifier, "a", ⟨0, 1⟩⟩ :: laterItems := by
    decide +kernel
  have hc : ofSource "a 1x & b;" =
      .ok ⟨some ⟨.identifier, "a", ⟨0, 1⟩⟩, .point 0, laterItems, 9⟩ := by
    rw [ofSource, ofStream, hitems]
    rfl
  exact ⟨_, hc, operations_conserve hc retries⟩

end Cursor

end Clausal
