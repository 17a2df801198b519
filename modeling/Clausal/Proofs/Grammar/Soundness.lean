import Clausal.Proofs.Grammar.Boundary
import Clausal.Proofs.Grammar.Openings
import Clausal.Proofs.Grammar.Progress

/-!
The readers follow the grammar. Whenever a reader answers with a value, from any cursor, the items
it stepped over are the tokens of a word of its phrase, the value is what the word means, and the
cursor stands behind the word. Whenever it finds the end of the input although something has to
follow, what was left of the input begins such a word, and what is missing can be supplied. Both are
said of a reader at once, so that each reader is gone through once.
-/

namespace Clausal

open Token

namespace Parser

variable {α β : Type} {G H : Readings α} {K : α → Readings β} {p q : Parser α} {f : α → Parser β}
  {c c' : Cursor} {kind : Kind} {text : String}

/-- What a reader answers at the cursor, in terms of the words that it is meant to read. -/
structure Traces (G : Readings α) (p : Parser α) (c : Cursor) : Prop where
  read {a : α} {c' : Cursor} : p c = .ok a c' → ∃ w, c.Advances w c' ∧ G w a
  /-- Where the input ends too early, what was left at the cursor begins one of the words. -/
  opens {e : ParseError} : p c = .error e → e.isUnexpectedEnd = true →
    ∃ w, c.items = w.map .ok ∧ Opens G.words w

/-- The reader reads these words wherever it starts, and one of them can be written from nothing. -/
structure Realizes (G : Readings α) (p : Parser α) : Prop where
  traces (c : Cursor) : Traces G p c
  supply : Opens G.words []

theorem bind_eq_error {e : ParseError} (h : (p >>= f) c = .error e) :
    p c = .error e ∨ ∃ a c', p c = .ok a c' ∧ f a c' = .error e := by
  rw [bind_apply] at h
  cases hp : p c with
  | ok a c' => exact .inr ⟨a, c', rfl, by simpa [hp, Reply.bind] using h⟩
  | error e' => exact .inl (by simpa [hp, Reply.bind] using h)
  | starved => simp [hp, Reply.bind] at h

/-- A context is added to the error of the reader in it. -/
theorem within_eq_error {context : ParseError.Context} {e : ParseError}
    (h : within context p c = .error e) : ∃ e', p c = .error e' ∧ e'.within context = e := by
  unfold within at h
  cases hp : p c <;> simp_all [Reply.mapError]

theorem eq_of_ofStep_eq_error {r : Except ParseError α × Cursor} {e : ParseError}
    (h : Reply.ofStep r = .error e) : r.1 = .error e := by
  obtain ⟨o, c'⟩ := r
  cases o <;> simp_all [Reply.ofStep]

/-- A step over a token that is there may meet an error in the input, but not its end. -/
theorem atEnd_of_step {e : ParseError} (h : c.consume.1 = .error e)
    (hend : e.isUnexpectedEnd = true) : c.current = none := by
  unfold Cursor.consume at h
  split at h
  · assumption
  · split at h
    · simp at h
    · simp at h
    · obtain rfl := Except.error.inj h
      contradiction

theorem atEnd_of_mismatch {spelling : Option String}
    (hend : (c.mismatch kind spelling).isUnexpectedEnd = true) : c.current = none := by
  cases hc : c.current with
  | none => rfl
  | some t => simp [Cursor.mismatch, hc, ParseError.isUnexpectedEnd] at hend

theorem atEnd_of_expect {e : ParseError} (he : expect kind c = .error e)
    (hend : e.isUnexpectedEnd = true) : c.current = none := by
  have hstep := eq_of_ofStep_eq_error he
  unfold Cursor.expect at hstep
  split at hstep
  · exact atEnd_of_step hstep hend
  · obtain rfl := Except.error.inj hstep
    exact atEnd_of_mismatch hend

theorem atEnd_of_expectText {e : ParseError} (he : expectText kind text c = .error e)
    (hend : e.isUnexpectedEnd = true) : c.current = none := by
  have hstep := eq_of_ofStep_eq_error he
  unfold Cursor.expectText at hstep
  split at hstep
  · exact atEnd_of_step hstep hend
  · obtain rfl := Except.error.inj hstep
    exact atEnd_of_mismatch hend

/-- Nothing has to follow where a token may be missing. -/
theorem isUnexpectedEnd_of_eat {e : ParseError} (he : eat kind c = .error e) :
    e.isUnexpectedEnd = false := by
  have hstep := eq_of_ofStep_eq_error he
  unfold Cursor.eat at hstep
  split at hstep
  · next hcheck =>
      obtain ⟨t, hc, -⟩ := Cursor.current_of_any hcheck
      split at hstep
      · simp at hstep
      · next e' c' hconsume =>
          obtain rfl := Except.error.inj hstep
          refine Bool.eq_false_iff.mpr fun hend => ?_
          have hnone := atEnd_of_step (by rw [hconsume]) hend
          rw [hc] at hnone
          contradiction
  · simp at hstep

namespace Traces

theorem mono (h : Traces G p c) (hle : G ≤ H) : Traces H p c := by
  refine ⟨fun hread => ?_, fun he hend => ?_⟩
  · obtain ⟨w, hadv, hG⟩ := h.read hread
    exact ⟨w, hadv, hle w _ hG⟩
  · obtain ⟨w, hw, hopens⟩ := h.opens he hend
    exact ⟨w, hw, hopens.mono (Readings.words_mono hle)⟩

theorem pure {a : α} (h : G [] a) : Traces G (pure a) c := by
  refine ⟨fun hread => ?_, fun he _ => ?_⟩
  · obtain ⟨rfl, rfl⟩ := pure_eq_ok hread
    exact ⟨[], .refl c, h⟩
  · simp [pure_apply] at he

theorem starve : Traces G (starve : Parser α) c :=
  ⟨by simp [Parser.starve], by simp [Parser.starve]⟩

theorem fail {e : ParseError} (h : e.isUnexpectedEnd = false) :
    Traces G (fail e : Parser α) c := by
  refine ⟨by simp [Parser.fail], fun he hend => ?_⟩
  obtain rfl : e = _ := by simpa [Parser.fail] using he
  rw [h] at hend
  contradiction

theorem failAtEnd {e : ParseError} (hc : c.current = none) (hG : Opens G.words []) :
    Traces G (Parser.fail e : Parser α) c :=
  ⟨by simp [Parser.fail], fun _ _ => ⟨[], by simp [Cursor.items, hc], hG⟩⟩

theorem look {g : Cursor → β} {f : β → Parser α} (h : Traces G (f (g c)) c) :
    Traces G (look g >>= f) c :=
  ⟨h.read, h.opens⟩

theorem within {context : ParseError.Context} (h : Traces G p c) :
    Traces G (within context p) c := by
  refine ⟨fun hread => h.read (within_eq_ok hread), fun he hend => ?_⟩
  obtain ⟨e', he', rfl⟩ := within_eq_error he
  exact h.opens he' hend

/-- What was read before the end of the input is put in front of what was left there. -/
theorem bindInto {H : Readings β} (hp : Traces G p c)
    (hf : ∀ {u a c'}, G u a → c.Advances u c' → Traces (fun v b => H (u ++ v) b) (f a) c')
    (hH : ∀ {w}, Opens G.words w → Opens H.words w) : Traces H (p >>= f) c := by
  refine ⟨fun hread => ?_, fun he hend => ?_⟩
  · obtain ⟨a, c₁, ha, hread⟩ := bind_eq_ok hread
    obtain ⟨u, hu, hG⟩ := hp.read ha
    obtain ⟨v, hv, hword⟩ := (hf hG hu).read hread
    exact ⟨u ++ v, hu.append hv, hword⟩
  · rcases bind_eq_error he with he | ⟨a, c₁, ha, he⟩
    · obtain ⟨w, hw, hopens⟩ := hp.opens he hend
      exact ⟨w, hw, hH hopens⟩
    · obtain ⟨u, hu, hG⟩ := hp.read ha
      obtain ⟨w, hw, v, hv, b, hword⟩ := (hf hG hu).opens he hend
      refine ⟨u ++ w, by rw [hu.items_eq, hw, List.map_append], v, hv, b, ?_⟩
      rwa [List.append_assoc]

theorem bind (hp : Traces G p c) (hf : ∀ a, Realizes (K a) (f a)) :
    Traces (G.bind K) (p >>= f) c :=
  hp.bindInto (fun {_ a c'} hG _ => ((hf a).traces c').mono fun _ _ => .mk hG)
    fun hopens => Readings.opens_bind hopens fun a => (hf a).supply

theorem map (g : α → β) (hp : Traces G p c) :
    Traces (G.map g) (p >>= fun a => Pure.pure (g a)) c :=
  hp.bindInto (fun hG _ => .pure (by rw [List.append_nil]; exact .mk hG)) (Readings.opens_map g)

/-- A token that is at the cursor is the one that is read. -/
theorem of_current {p : Parser Token} {P : Token → Prop} (hc : ∃ t, c.current = some t ∧ P t)
    (hread : ∀ {t c'}, p c = .ok t c' → c.Advances [t] c')
    (hend : ∀ {e}, p c = .error e → e.isUnexpectedEnd = true → c.current = none) :
    Traces (.token P) p c := by
  obtain ⟨t, hc, hP⟩ := hc
  refine ⟨fun h => ?_, fun he h => ?_⟩
  · have hadv := hread h
    obtain rfl := Option.some.inj (hadv.current_eq.symm.trans hc)
    exact ⟨_, hadv, .mk hP⟩
  · cases hc.symm.trans (hend he h)

theorem consume {P : Token → Prop} (hc : ∃ t, c.current = some t ∧ P t) :
    Traces (.token P) consume c :=
  of_current hc consume_eq_ok fun he => atEnd_of_step (eq_of_ofStep_eq_error he)

theorem expect {P : Token → Prop} (hc : ∃ t, c.current = some t ∧ P t) :
    Traces (.token P) (expect kind) c :=
  of_current hc (fun h => (expect_eq_ok h).2) atEnd_of_expect

/-- A token that may be missing leads on with one reader, and its absence with another. -/
theorem eat (hp : ∀ c', Traces G p c') (hq : Traces H q c) :
    Traces ((Readings.token (·.kind = kind)).bind (fun _ => G) ⊔ H)
      (eat kind >>= fun eaten => if eaten = true then p else q) c := by
  refine ⟨fun hread => ?_, fun he hend => ?_⟩
  · obtain ⟨eaten, c₁, heat, hread⟩ := bind_eq_ok hread
    rcases eat_eq_ok heat with ⟨rfl, t, ht, hadv⟩ | ⟨rfl, rfl⟩
    · obtain ⟨w, hw, hG⟩ := (hp c₁).read hread
      exact ⟨[t] ++ w, hadv.append hw, .inl (.mk (.mk ht) hG)⟩
    · obtain ⟨w, hw, hH⟩ := hq.read hread
      exact ⟨w, hw, .inr hH⟩
  · rcases bind_eq_error he with he | ⟨eaten, c₁, heat, he⟩
    · rw [isUnexpectedEnd_of_eat he] at hend
      contradiction
    · rcases eat_eq_ok heat with ⟨rfl, t, ht, hadv⟩ | ⟨rfl, rfl⟩
      · obtain ⟨w, hw, v, hv, b, hword⟩ := (hp c₁).opens he hend
        refine ⟨[t] ++ w, by rw [hadv.items_eq, hw, List.map_append], v, hv, b, .inl ?_⟩
        rw [List.append_assoc]
        exact .mk (.mk ht) hword
      · obtain ⟨w, hw, v, hv, b, hword⟩ := hq.opens he hend
        exact ⟨w, hw, v, hv, b, .inr hword⟩

end Traces

namespace Realizes

theorem mono (h : Realizes G p) (hle : G ≤ H) : Realizes H p :=
  ⟨fun c => (h.traces c).mono hle, h.supply.mono (Readings.words_mono hle)⟩

theorem pure (a : α) : Realizes (.nothing a) (Pure.pure a) :=
  ⟨fun _ => .pure .mk, .of_mem ⟨a, .mk⟩⟩

theorem starve (h : Opens G.words []) : Realizes G (starve : Parser α) :=
  ⟨fun _ => .starve, h⟩

theorem within {context : ParseError.Context} (h : Realizes G p) :
    Realizes G (within context p) :=
  ⟨fun c => (h.traces c).within, h.supply⟩

theorem bind (hp : Realizes G p) (hf : ∀ a, Realizes (K a) (f a)) :
    Realizes (G.bind K) (p >>= f) :=
  ⟨fun c => (hp.traces c).bind hf, Readings.opens_bind hp.supply fun a => (hf a).supply⟩

theorem map (g : α → β) (hp : Realizes G p) :
    Realizes (G.map g) (p >>= fun a => Pure.pure (g a)) :=
  ⟨fun c => (hp.traces c).map g, Readings.opens_map g hp.supply⟩

theorem eat (hp : ∀ c, Traces G p c) (hq : Realizes H q) :
    Realizes ((Readings.token (·.kind = kind)).bind (fun _ => G) ⊔ H)
      (eat kind >>= fun eaten => if eaten = true then p else q) :=
  ⟨fun c => .eat hp (hq.traces c), hq.supply.mono (Readings.words_mono le_sup_right)⟩

/-- A token of a kind is expected, and there is one to supply. -/
theorem expect (h : kind ≠ .blank) : Realizes (.token (·.kind = kind)) (expect kind) := by
  have hsupply := Readings.opens_token (exists_supplied_kind kind h)
  refine ⟨fun c => ⟨fun hread => ?_, fun he hend => ?_⟩, hsupply⟩
  · obtain ⟨hkind, hadv⟩ := expect_eq_ok hread
    exact ⟨_, hadv, .mk hkind⟩
  · exact ⟨[], by simp [Cursor.items, atEnd_of_expect he hend], hsupply⟩

theorem expectText (h : ∃ t : Token, t.Supplied ∧ t.is kind text = true) :
    Realizes (.token (·.is kind text = true)) (expectText kind text) := by
  have hsupply := Readings.opens_token h
  refine ⟨fun c => ⟨fun hread => ?_, fun he hend => ?_⟩, hsupply⟩
  · obtain ⟨his, hadv⟩ := expectText_eq_ok hread
    exact ⟨_, hadv, .mk his⟩
  · exact ⟨[], by simp [Cursor.items, atEnd_of_expectText he hend], hsupply⟩

end Realizes

/-- A list is read as words that grow at their front by what one element reads. -/
theorem realizes_commaSeparated {E : Readings α} {S : Readings (List α)} (hp : Realizes E p)
    (hlast : ∀ {w a}, E w a → S w [a])
    (hnext : ∀ {u a comma v as}, E u a → comma.kind = .comma → S v as →
      S (u ++ comma :: v) (a :: as)) (rounds : Nat) :
    Realizes S (commaSeparated p rounds) := by
  induction rounds with
  | zero =>
      refine .starve (hp.supply.mono ?_)
      rintro w ⟨a, h⟩
      exact ⟨[a], hlast h⟩
  | succ rounds ih =>
      refine .mono (.bind hp fun a => .eat (ih.map (a :: ·)).traces (.pure [a])) ?_
      rintro _ _ ⟨ha, ⟨⟨hm⟩, ⟨has⟩⟩ | ⟨⟨⟩⟩⟩
      · exact hnext ha hm has
      · rw [List.append_nil]
        exact hlast ha

/-- A list that may be empty, in parentheses. -/
theorem realizes_enclosedList {S : Readings (List α)} {context : ParseError.Context} {rounds : Nat}
    (hlist : Realizes S (commaSeparated p rounds)) :
    Realizes ((Readings.token (·.kind = .leftParen)).bind fun _ =>
      (Readings.nothing [] ⊔ S).bind fun values =>
        (Readings.token (·.kind = .rightParen)).map fun _ => values)
      (within context do
        let _ ← expect .leftParen
        let values ← commaSeparatedOrNone p rounds
        let _ ← expect .rightParen
        return values) := by
  have hvalues : Realizes (Readings.nothing [] ⊔ S) (commaSeparatedOrNone p rounds) := by
    refine ⟨fun c => .look ?_, hlist.supply.mono (Readings.words_mono le_sup_right)⟩
    split
    · exact .pure (.inl .mk)
    · exact (hlist.traces c).mono le_sup_right
  exact .within <|
    .bind (.expect (by decide)) fun _ =>
    .bind hvalues fun values =>
    .map (fun _ => values) (.expect (by decide))

theorem realizes_ident :
    Realizes ((Readings.token (·.kind = .identifier)).map fun t => ⟨t.text, t.span⟩) ident :=
  (Realizes.expect (by decide)).map _

theorem realizes_names (rounds : Nat) :
    Realizes (Phrase.names.readings id) (commaSeparated ident rounds) := by
  refine realizes_commaSeparated realizes_ident ?_ ?_ rounds
  · rintro _ _ ⟨⟨ht⟩⟩
    exact ⟨.lastName _ ht, rfl⟩
  · rintro _ _ comma v _ ⟨⟨ht⟩⟩ hm ⟨d, rfl⟩
    exact ⟨.nextName _ comma ht hm d, rfl⟩

theorem realizes_parameters (rounds : Nat) :
    Realizes (Phrase.parameters.readings id) (parameters rounds) := by
  refine (realizes_enclosedList (realizes_names rounds)).mono ?_
  rintro _ _ ⟨⟨ho⟩, ⟨⟨⟨⟩⟩ | ⟨d, rfl⟩, ⟨⟨hc⟩⟩⟩⟩
  · exact ⟨.noParameters _ _ ho hc, rfl⟩
  · exact ⟨.someParameters _ _ ho hc d, rfl⟩

theorem realizes_binders (rounds : Nat) :
    Realizes (Phrase.binders.readings id) (binders rounds) := by
  have hone : Realizes (Phrase.binders.readings id) (ident >>= fun param => pure [param]) := by
    refine (realizes_ident.map fun param => [param]).mono ?_
    rintro _ _ ⟨⟨⟨ht⟩⟩⟩
    exact ⟨.oneBinder _ ht, rfl⟩
  refine ⟨fun c => .look ?_, hone.supply⟩
  split
  · refine ((realizes_parameters rounds).traces c).mono ?_
    rintro _ _ ⟨d, rfl⟩
    exact ⟨.enclosedBinders d, rfl⟩
  · exact hone.traces c

section Expressions

variable {expr : Parser Expr} (hexpr : Realizes (Phrase.expression.readings id) expr)

include hexpr

theorem realizes_expressions (rounds : Nat) :
    Realizes (Phrase.expressions.readings id) (commaSeparated expr rounds) := by
  refine realizes_commaSeparated hexpr ?_ ?_ rounds
  · rintro _ _ ⟨d, rfl⟩
    exact ⟨.lastExpression d, rfl⟩
  · rintro _ _ comma _ _ ⟨d, rfl⟩ hm ⟨ds, rfl⟩
    exact ⟨.nextExpression comma hm d ds, rfl⟩

theorem realizes_arguments (rounds : Nat) :
    Realizes (Phrase.arguments.readings Prod.fst) (arguments expr rounds) := by
  refine (realizes_enclosedList (realizes_expressions hexpr rounds)).mono ?_
  rintro _ _ ⟨⟨ho⟩, ⟨⟨⟨⟩⟩ | ⟨d, rfl⟩, ⟨⟨hc⟩⟩⟩⟩
  · exact ⟨.noArguments _ _ ho hc, rfl⟩
  · exact ⟨.someArguments _ _ ho hc d, rfl⟩

omit hexpr in
theorem isUnexpectedEnd_of_atom? {t : Token} {e : ParseError} (h : atom? t = some (.error e)) :
    e.isUnexpectedEnd = false := by
  unfold atom? at h
  split at h
  · split at h
    · cases h
    · cases h
      rfl
  all_goals cases h

/-- The arrow of a clause, its result and its semicolon. -/
def resultReadings (g : Expr → Token → Clause) : Readings Clause :=
  (Readings.token (·.kind = .arrow)).bind fun _ =>
    (Phrase.expression.readings id).bind fun body =>
      (Readings.token (·.kind = .semicolon)).map fun stop => g body stop

theorem realizes_result (g : Expr → Token → Clause) :
    Realizes (resultReadings g) (do
      let _ ← expect .arrow
      let body ← expr
      let stop ← expect .semicolon
      return g body stop) :=
  .bind (.expect (by decide)) fun _ =>
  .bind hexpr fun body =>
  .map (fun stop => g body stop) (.expect (by decide))

/-- The words of an expression that does not start with a lone underscore. -/
def guardReadings : Readings Expr :=
  fun w e => leadsBlank w = false ∧ Phrase.expression.readings id w e

omit hexpr in
theorem opens_guardReadings : Opens guardReadings.words [] := by
  have hname : Supplied ⟨.identifier, String.ofList Kind.identifier.sample, .point 0⟩ :=
    Kind.supplied_sample _ (by decide)
  obtain ⟨d, -⟩ := (Derivation.ident ⟨.identifier, _, .point 0⟩ rfl).exists_expression
  exact ⟨_, List.forall_mem_singleton.mpr hname, _, hname.named, d, rfl⟩

/-- The condition of a clause is told from the name that stands for any value by its first token. -/
theorem traces_guard (hc : c.checkText .identifier "_" = false) : Traces guardReadings expr c := by
  refine ⟨fun hread => ?_, fun he hend => ?_⟩
  · obtain ⟨w, hadv, d, hd⟩ := (hexpr.traces c).read hread
    refine ⟨w, hadv, ?_, d, hd⟩
    obtain ⟨t, u, rfl, -⟩ := d.opens rfl
    simpa [Cursor.checkText, hadv.current_eq] using hc
  · obtain ⟨w, hw, v, hv, a, hword⟩ := (hexpr.traces c).opens he hend
    refine ⟨w, hw, v, hv, a, ?_, hword⟩
    cases w with
    | nil =>
        cases v with
        | nil => rfl
        | cons t v => exact (hv t List.mem_cons_self).named
    | cons t w =>
        have hcurrent : c.current = some t := Cursor.current_of_items hw
        simpa [Cursor.checkText, hcurrent] using hc

/-- The arrow, the result and the semicolon of a clause that is always taken. -/
def catchAllReadings (start : Span) : Readings Clause :=
  resultReadings fun e stop => .catchAll e (start.merge stop.span)

/-- What stands between `when` and the end of the clause. -/
def whenReadings (start : Span) : Readings Clause :=
  (Readings.token (·.is .identifier "_" = true)).bind (fun _ => catchAllReadings start) ⊔
    guardReadings.bind fun condition =>
      resultReadings fun e stop => .guarded condition e (start.merge stop.span)

theorem realizes_when (start : Span) :
    Realizes (whenReadings start) (do
      if ← checkText .identifier "_" then
        let _ ← consume
        clause.catchAllFrom expr start
      else
        let condition ← expr
        let _ ← expect .arrow
        let body ← expr
        let stop ← expect .semicolon
        return .guarded condition body (start.merge stop.span)) := by
  have hsupply : Opens (whenReadings start).words [] := by
    refine (Readings.opens_bind opens_guardReadings fun _ => ?_).mono
      (Readings.words_mono le_sup_right)
    exact (realizes_result hexpr _).supply
  refine ⟨fun c => .look ?_, hsupply⟩
  split
  · next hblank =>
      have hname := Traces.consume (Cursor.current_of_any hblank)
      exact (hname.bind fun _ => realizes_result hexpr _).mono le_sup_left
  · next hnamed =>
      have hguard := traces_guard hexpr (by simpa using hnamed)
      exact (hguard.bind fun _ => realizes_result hexpr _).mono le_sup_right

/-- A clause is one of the three forms that begin with their keyword. -/
theorem realizes_clause : Realizes (Phrase.clause.readings id) (clause expr) := by
  have hotherwise (start : Span) : (Readings.token fun t => t.is .keyword "otherwise" = true ∧
      t.span = start).bind (fun _ => catchAllReadings start) ≤ Phrase.clause.readings id := by
    rintro _ _ ⟨⟨hk, rfl⟩, ⟨⟨ha⟩, ⟨⟨d, rfl⟩, ⟨⟨hs⟩⟩⟩⟩⟩
    exact ⟨.otherwise _ _ _ hk ha hs d, rfl⟩
  have hwhen (start : Span) : (Readings.token fun t => t.is .keyword "when" = true ∧
      t.span = start).bind (fun _ => whenReadings start) ≤ Phrase.clause.readings id := by
    rintro _ _ ⟨⟨hk, rfl⟩, ⟨⟨hn⟩, ⟨⟨ha⟩, ⟨⟨d, rfl⟩, ⟨⟨hs⟩⟩⟩⟩⟩ |
      ⟨⟨hleads, d, rfl⟩, ⟨⟨ha⟩, ⟨⟨d', rfl⟩, ⟨⟨hs⟩⟩⟩⟩⟩⟩
    · exact ⟨.blank _ _ _ _ hk hn ha hs d, rfl⟩
    · exact ⟨.guarded _ _ _ hk ha hs d hleads d', rfl⟩
  have hsupply : Opens (Phrase.clause.readings id).words [] := by
    -- The shortest way to supply a clause that has not even begun.
    have hkeyword := Readings.opens_token (P := fun t => t.is .keyword "otherwise" = true ∧
      t.span = .point 0) ⟨_, Kind.supplied_sample .keyword (by decide), rfl, rfl⟩
    refine (Readings.opens_bind hkeyword fun _ => ?_).mono (Readings.words_mono (hotherwise _))
    exact (realizes_result hexpr _).supply
  refine ⟨fun c => ?_, hsupply⟩
  have hplace {t : Token} (ht : c.current = some t) : t.span = c.currentSpan :=
    (Cursor.currentSpan_of_current ht).symm
  refine .look <| .look ?_
  split
  · next hword =>
      obtain ⟨k, hc, hk⟩ := Cursor.current_of_any hword
      exact ((Traces.consume ⟨k, hc, hk, hplace hc⟩).bind fun _ => realizes_when hexpr _).mono
        (hwhen _)
  · refine .look ?_
    split
    · next hword =>
        obtain ⟨k, hc, hk⟩ := Cursor.current_of_any hword
        exact ((Traces.consume ⟨k, hc, hk, hplace hc⟩).bind fun _ => realizes_result hexpr _).mono
          (hotherwise _)
    · refine .look ?_
      cases hc : c.current with
      | some t => exact .fail rfl
      | none => exact .failAtEnd hc hsupply

theorem realizes_clauses (rounds : Nat) :
    Realizes (Phrase.clauses.readings id) (clauses expr rounds) := by
  have hnone : Opens (Phrase.clauses.readings id).words [] := .of_mem ⟨_, .noClause, rfl⟩
  induction rounds with
  | zero => exact .starve hnone
  | succ rounds ih =>
      refine ⟨fun c => .look ?_, hnone⟩
      split
      · exact .pure ⟨.noClause, rfl⟩
      · have hclause : Realizes _ (within .matchClause (clause expr)) :=
          (realizes_clause hexpr).within
        have hmore := hclause.bind fun k => ih.map (k :: ·)
        refine (Traces.eat ih.traces (hmore.traces c)).mono ?_
        rintro _ _ (⟨⟨hm⟩, ⟨d, rfl⟩⟩ | ⟨⟨d, rfl⟩, ⟨⟨ds, rfl⟩⟩⟩)
        · exact ⟨.remark _ hm d, rfl⟩
        · exact ⟨.nextClause d ds, rfl⟩

/-- Where the keyword of a match stands, a match is read. -/
theorem traces_matchExpression (rounds : Nat) {t : Token} (hc : c.current = some t)
    (ht : t.is .keyword "match" = true) :
    Traces (Phrase.primary.readings id) (matchExpression expr rounds) c := by
  have hkeyword : Traces (.token (·.is .keyword "match" = true)) (expect .keyword) c :=
    .expect ⟨t, hc, ht⟩
  refine .within <| .mono
    (.bind hkeyword fun keyword =>
      .bind (realizes_binders rounds) fun params =>
      .bind (.expect (by decide)) fun _ =>
      .bind (realizes_clauses hexpr rounds) fun cases =>
      .map _ (.expect (by decide))) ?_
  rintro _ _ ⟨⟨hk⟩, ⟨⟨d, rfl⟩, ⟨⟨ho⟩, ⟨⟨ds, rfl⟩, ⟨⟨hs⟩⟩⟩⟩⟩⟩
  exact ⟨.matching _ _ _ hk ho hs d ds, rfl⟩

/-- Behind the opening bracket stands one expression in brackets, or a tuple, which has a comma. -/
theorem realizes_parenthesized (rounds : Nat) :
    Realizes (Phrase.primary.readings id) (parenthesized expr rounds) := by
  have hclosing : Realizes (.token (·.kind = .rightParen)) (expect .rightParen) :=
    .expect (by decide)
  have htuple (opening : Token) (first : Expr) :=
    (realizes_expressions hexpr rounds).bind fun others =>
      hclosing.map fun stop => Expr.tuple (first :: others) (opening.span.merge stop.span)
  refine .within <| .mono
    (.bind (.expect (by decide)) fun opening =>
      .bind hexpr fun first =>
      .eat (htuple opening first).traces (hclosing.map fun _ => first)) ?_
  rintro _ _ ⟨⟨ho⟩, ⟨⟨d, rfl⟩, ⟨⟨hm⟩, ⟨⟨ds, rfl⟩, ⟨⟨hs⟩⟩⟩⟩ | ⟨⟨⟨hs⟩⟩⟩⟩⟩
  · exact ⟨.tuple _ _ _ ho hm hs d ds, rfl⟩
  · exact ⟨.grouping _ _ ho hs d, rfl⟩

omit hexpr in
/-- A token that is read as it is makes up a primary expression on its own. -/
theorem derivation_of_atom? {t : Token} {e : Expr} (h : atom? t = some (.ok e)) :
    ∃ d : Derivation .primary [t], d.meaning = e := by
  unfold atom? at h
  split at h
  · next ht =>
      split at h
      · next value hvalue =>
          simp only [Literal.numberValue?, Option.ite_none_right_eq_some,
            Option.some.injEq] at hvalue
          obtain ⟨finite, rfl⟩ := hvalue
          obtain rfl := Except.ok.inj (Option.some.inj h)
          exact ⟨.number t ht finite, rfl⟩
      · simp at h
  · next ht =>
      obtain rfl := Except.ok.inj (Option.some.inj h)
      exact ⟨.string t ht, rfl⟩
  · next ht =>
      obtain rfl := Except.ok.inj (Option.some.inj h)
      exact ⟨.boolean t ht, rfl⟩
  · next ht =>
      obtain rfl := Except.ok.inj (Option.some.inj h)
      exact ⟨.ident t ht, rfl⟩
  · contradiction

omit hexpr in
/-- A name is enough for a primary expression. -/
theorem opens_primary : Opens (Phrase.primary.readings id).words [] := by
  refine (Readings.opens_token (exists_supplied_kind .identifier (by decide))).mono ?_
  rintro _ ⟨t, ⟨ht⟩⟩
  exact ⟨_, .ident t ht, rfl⟩

omit hexpr in
/-- A primary expression is enough at every level of precedence. -/
theorem opens_level (n : Nat) : Opens ((Phrase.level n).readings id).words [] := by
  refine opens_primary.mono ?_
  rintro w ⟨-, d, -⟩
  obtain ⟨d', -⟩ := d.exists_called
  obtain ⟨d'', -⟩ := d'.exists_level (Nat.zero_le n)
  exact ⟨_, d'', rfl⟩

theorem realizes_primary (rounds : Nat) :
    Realizes (Phrase.primary.readings id) (primary expr rounds) := by
  refine ⟨fun c => .look ?_, opens_primary⟩
  cases hc : c.current with
  | none => exact .look (.failAtEnd hc opens_primary)
  | some t =>
      simp only
      split
      · next ht => exact traces_matchExpression hexpr rounds hc ht
      · split
        · exact (realizes_parenthesized hexpr rounds).traces c
        · rcases hatom : atom? t with _ | e | e
          · exact .fail rfl
          · exact .fail (isUnexpectedEnd_of_atom? hatom)
          · obtain ⟨d, hd⟩ := derivation_of_atom? hatom
            refine ((Traces.consume ⟨t, hc, rfl⟩).map fun _ => e).mono ?_
            rintro _ _ ⟨⟨rfl⟩⟩
            exact ⟨d, hd⟩

/-- Where a call ends is told by the token that was read last. -/
theorem realizes_calls (rounds : Nat) (callee : Expr) :
    Realizes (Phrase.calls.readings (Derivation.applyCalls callee)) (calls expr rounds callee) := by
  have hnone (callee : Expr) :
      Opens (Phrase.calls.readings (Derivation.applyCalls callee)).words [] :=
    .of_mem ⟨_, .noCall, rfl⟩
  induction rounds generalizing callee with
  | zero => exact .starve (hnone callee)
  | succ rounds ih =>
      refine ⟨fun c => .look ?_, hnone callee⟩
      split
      · refine ((realizes_arguments hexpr rounds).traces c).bindInto ?_ ?_
        · rintro u _ c' ⟨d, rfl⟩ hadv
          refine .look (((ih _).traces c').mono ?_)
          rintro v _ ⟨ds, rfl⟩
          refine ⟨.call d ds, ?_⟩
          rw [hadv.previous_eq, d.lastSpan_arguments]
          rfl
        · rintro w ⟨v, hv, -, d, -⟩
          have d' : Derivation .calls (w ++ v ++ []) := .call d .noCall
          rw [List.append_nil] at d'
          exact ⟨v, hv, _, d', rfl⟩
      · exact .pure ⟨.noCall, rfl⟩

theorem realizes_unary (rounds : Nat) :
    Realizes ((Phrase.level 0).readings id) (unary expr rounds) := by
  induction rounds with
  | zero => exact .starve (opens_level 0)
  | succ rounds ih =>
      refine ⟨fun c => .look ?_, opens_level 0⟩
      cases hop : c.unaryOperator? with
      | some op =>
          have htoken : ∃ t, c.current = some t ∧ t.unaryOp? = some op :=
            Option.bind_eq_some_iff.mp hop
          refine ((Traces.consume htoken).bind fun _ => ih.map _).mono ?_
          rintro _ _ ⟨⟨ht⟩, ⟨⟨d, rfl⟩⟩⟩
          exact ⟨.unary _ op ht d, rfl⟩
      | none =>
          have hcallee := (realizes_primary hexpr rounds).traces c
          refine (hcallee.bind fun callee => realizes_calls hexpr rounds callee).mono ?_
          rintro _ _ ⟨⟨d, rfl⟩, ⟨ds, rfl⟩⟩
          exact ⟨.called d ds, rfl⟩

omit hexpr in
/-- A chain of operations is read from the left, so what is read is applied to what came before. -/
theorem realizes_chain {operand : Parser Expr} {n : Nat}
    (hoperand : Realizes ((Phrase.level n).readings id) operand) (rounds : Nat) (left : Expr) :
    Realizes ((Phrase.chain n).readings (Derivation.applyChain left))
      (chain operand (n + 1) rounds left) := by
  have hnone (left : Expr) :
      Opens ((Phrase.chain n).readings (Derivation.applyChain left)).words [] :=
    .of_mem ⟨_, .noOperation, rfl⟩
  induction rounds generalizing left with
  | zero => exact .starve (hnone left)
  | succ rounds ih =>
      refine ⟨fun c => .look ?_, hnone left⟩
      cases hop : c.operator? (n + 1) with
      | some op =>
          have htoken : ∃ t, c.current = some t ∧ t.binaryOp? = some op ∧
              op.precedence = n + 1 := by
            simpa [Cursor.operator?, Option.bind_eq_some_iff, Option.filter_eq_some_iff] using hop
          refine ((Traces.consume htoken).bind fun _ => hoperand.bind fun right =>
            ih (.joined op left right)).mono ?_
          rintro _ _ ⟨⟨ht, hlevel⟩, ⟨⟨d, rfl⟩, ⟨ds, rfl⟩⟩⟩
          exact ⟨(.operation _ op ht hlevel d ds : Derivation _ (_ :: (_ ++ _))), rfl⟩
      | none => exact .pure ⟨.noOperation, rfl⟩

theorem realizes_binary (rounds n : Nat) :
    Realizes ((Phrase.level n).readings id) (binary expr rounds n) := by
  induction n with
  | zero => exact realizes_unary hexpr rounds
  | succ n ih =>
      refine (ih.bind fun left => realizes_chain ih rounds left).mono ?_
      rintro _ _ ⟨⟨d, rfl⟩, ⟨ds, rfl⟩⟩
      exact ⟨.operations d ds, rfl⟩

end Expressions

/-- An expression of any level is read, and the nesting of expressions is tied by the rounds. -/
theorem realizes_expression (rounds : Nat) :
    Realizes (Phrase.expression.readings id) (expression rounds) := by
  induction rounds with
  | zero => exact .starve (opens_level _)
  | succ rounds ih => exact realizes_binary ih rounds BinaryOp.loosest

theorem realizes_typeName :
    Realizes ((Readings.token fun t => t.kind = .typeName ∨ t.kind = .identifier).map (·.text))
      typeName := by
  have hexpected : Realizes ((Readings.token (·.kind = .typeName)).map (·.text))
      (expect .typeName >>= fun t => pure t.text) := (Realizes.expect (by decide)).map _
  have hle : (Readings.token (·.kind = .typeName)).map (·.text) ≤
      (Readings.token fun t => t.kind = .typeName ∨ t.kind = .identifier).map (·.text) := by
    rintro _ _ ⟨⟨ht⟩⟩
    exact .mk (.mk (.inl ht))
  refine ⟨fun c => .look ?_, (hexpected.mono hle).supply⟩
  split
  · next h =>
      refine (Traces.consume ?_).map _
      obtain ⟨t, hc, ht⟩ := Cursor.current_of_any h
      exact ⟨t, hc, by simpa using ht⟩
  · exact (hexpected.mono hle).traces c

theorem realizes_types (rounds : Nat) :
    Realizes (Phrase.types.readings fun ts => ts.1 ++ [ts.2]) (commaSeparated typeName rounds) := by
  refine realizes_commaSeparated realizes_typeName ?_ ?_ rounds
  · rintro _ _ ⟨⟨ht⟩⟩
    exact ⟨.lastType _ ht, rfl⟩
  · rintro _ _ comma _ _ ⟨⟨ht⟩⟩ hm ⟨d, rfl⟩
    exact ⟨.nextType _ comma ht hm d, rfl⟩

theorem realizes_functionBody (rounds : Nat) :
    Realizes (Phrase.body.readings id) (functionBody rounds) := by
  have hplain : Realizes (Phrase.body.readings id) (do
      let _ ← expect .assign
      let body ← expression rounds
      return .ofExpr body) := by
    refine .mono
      (.bind (.expect (by decide)) fun _ =>
        .map _ (realizes_expression rounds)) ?_
    rintro _ _ ⟨⟨ha⟩, ⟨⟨d, rfl⟩⟩⟩
    exact ⟨.plain _ ha d, rfl⟩
  refine ⟨fun c => .look ?_, hplain.supply⟩
  split
  · refine .mono
      (.bind ((realizes_parameters rounds).traces c) fun params =>
        .bind (.expect (by decide)) fun _ =>
        .map _ (realizes_expression rounds)) ?_
    rintro _ _ ⟨⟨d, rfl⟩, ⟨⟨ha⟩, ⟨⟨d', rfl⟩⟩⟩⟩
    exact ⟨.sugared _ ha d d', rfl⟩
  · exact hplain.traces c

theorem realizes_definition (rounds : Nat) :
    Realizes (Phrase.statement.readings id) (definition rounds) := by
  refine .within <| .mono
    (.bind (.expect (by decide)) fun typeName =>
      .bind (.expect (by decide)) fun name =>
      .bind (.expect (by decide)) fun _ =>
      .bind (realizes_expression rounds) fun init =>
      .map _ (.expect (by decide))) ?_
  rintro _ _ ⟨⟨ht⟩, ⟨⟨hn⟩, ⟨⟨ha⟩, ⟨⟨d, rfl⟩, ⟨⟨hs⟩⟩⟩⟩⟩⟩
  exact ⟨.define _ _ _ _ ht hn ha hs d, rfl⟩

theorem realizes_expressionStatement (rounds : Nat) :
    Realizes (Phrase.statement.readings id) (expressionStatement rounds) := by
  refine .within <| .mono
    (.bind (realizes_expression rounds) fun e =>
      .map _ (.expect (by decide))) ?_
  rintro _ _ ⟨⟨d, rfl⟩, ⟨⟨hs⟩⟩⟩
  exact ⟨.expression _ hs d, rfl⟩

/-- Types and their closing bracket. -/
def closedTypes : Readings (List String) :=
  (Phrase.types.readings fun ts => ts.1 ++ [ts.2]).bind fun types =>
    (Readings.token (·.is .compareOp ">" = true)).map fun _ => types

theorem getLast?_of_closedTypes {w : List Token} {types : List String} (h : closedTypes w types) :
    types.getLast? = some (types.getLast?.getD "") := by
  obtain ⟨⟨d, rfl⟩, ⟨-⟩⟩ := h
  rw [List.getLast?_concat]
  rfl

/-- No type is read in front of the closing bracket. -/
theorem typeNames_of_closing (rounds : Nat) (h : c.checkText .compareOp ">" = true) :
    typeNames rounds c = .ok [] c := by
  simp [typeNames, checkText, look, bind_apply, Reply.bind, h, pure_apply]

theorem closedTypes_of_closing (rounds : Nat) (h : c.checkText .compareOp ">" = true) :
    (do
      let types ← typeNames rounds
      let _ ← expectText .compareOp ">"
      return types : Parser (List String)) c =
      (expectText .compareOp ">" >>= fun _ => pure []) c := by
  rw [bind_apply, typeNames_of_closing rounds h]
  rfl

/-- In front of any other token there is one type at least. -/
theorem traces_closedTypes (rounds : Nat) (h : c.checkText .compareOp ">" = false) :
    Traces closedTypes (do
      let types ← typeNames rounds
      let _ ← expectText .compareOp ">"
      return types) c := by
  have hclosing : ∃ t : Token, t.Supplied ∧ t.is .compareOp ">" = true :=
    ⟨_, Kind.supplied_sample .compareOp (by decide), rfl⟩
  have htypes : Traces (Phrase.types.readings fun ts => ts.1 ++ [ts.2]) (typeNames rounds) c := by
    refine .look ?_
    rw [h]
    exact (realizes_types rounds).traces c
  exact htypes.bind fun types => (Realizes.expectText hclosing).map fun _ => types

/-- A list of types is made up of its brackets, or there are types between them. -/
theorem typeList_eq_ok {rounds : Nat} {types : List String}
    (h : typeList rounds c = .ok types c') :
    ∃ opening : Token, opening.is .compareOp "<" = true ∧
      ((types = [] ∧ ∃ closing : Token, closing.is .compareOp ">" = true ∧
        c.Advances [opening, closing] c') ∨
      ∃ w, c.Advances (opening :: w) c' ∧ closedTypes w types) := by
  obtain ⟨opening, c₁, hopening, h⟩ := bind_eq_ok (within_eq_ok h)
  obtain ⟨ho, hadv⟩ := expectText_eq_ok hopening
  refine ⟨opening, ho, ?_⟩
  cases hempty : c₁.checkText .compareOp ">" with
  | true =>
      rw [closedTypes_of_closing rounds hempty] at h
      obtain ⟨closing, c₂, hclosing, h⟩ := bind_eq_ok h
      obtain ⟨hc, hadv'⟩ := expectText_eq_ok hclosing
      obtain ⟨rfl, rfl⟩ := pure_eq_ok h
      exact .inl ⟨rfl, closing, hc, hadv.cons hadv'⟩
  | false =>
      obtain ⟨w, hw, hword⟩ := (traces_closedTypes rounds hempty).read h
      exact .inr ⟨w, hadv.cons hw, hword⟩

/-- An empty list does not end too early: its closing bracket is there. -/
theorem typeList_opens {rounds : Nat} {opening : Token} (hcurrent : c.current = some opening)
    {e : ParseError} (he : typeList rounds c = .error e) (hend : e.isUnexpectedEnd = true) :
    ∃ w, c.items = (opening :: w).map .ok ∧ Opens closedTypes.words w := by
  obtain ⟨e', he', rfl⟩ := within_eq_error he
  rw [ParseError.isUnexpectedEnd_within] at hend
  rcases bind_eq_error he' with he' | ⟨t, c₁, hread, he'⟩
  · cases hcurrent.symm.trans (atEnd_of_expectText he' hend)
  · have hadv := (expectText_eq_ok hread).2
    obtain rfl := Option.some.inj (hadv.current_eq.symm.trans hcurrent)
    cases hempty : c₁.checkText .compareOp ">" with
    | true =>
        obtain ⟨closing, hc, -⟩ := Cursor.current_of_any hempty
        rw [closedTypes_of_closing rounds hempty] at he'
        rcases bind_eq_error he' with he' | ⟨_, _, -, he'⟩
        · cases hc.symm.trans (atEnd_of_expectText he' hend)
        · cases he'
    | false =>
        obtain ⟨w, hw, hopens⟩ := (traces_closedTypes rounds hempty).opens he' hend
        exact ⟨w, by rw [hadv.items_eq, hw]; rfl, hopens⟩

/-- What a declaration says behind its types. -/
def declaredReadings (start : Span) (types : List String) (returnType : String) :
    Readings Statement :=
  (Readings.token (·.kind = .identifier)).bind fun name =>
    (Phrase.body.readings id).bind fun body =>
      (Readings.token (·.kind = .semicolon)).map fun stop =>
        .function ⟨name.text, types.dropLast, returnType, body.paramNames, body⟩
          (start.merge stop.span)

theorem realizes_declared (rounds : Nat) (start : Span) (types : List String)
    (returnType : String) :
    Realizes (declaredReadings start types returnType) (do
      let name ← expect .identifier
      let body ← functionBody rounds
      let stop ← expect .semicolon
      return .function ⟨name.text, types.dropLast, returnType, body.paramNames, body⟩
        (start.merge stop.span)) :=
  .bind (.expect (by decide)) fun name =>
  .bind (realizes_functionBody rounds) fun body =>
  .map _ (.expect (by decide))

/-- A declaration behind its opening bracket. -/
def functionReadings (opening : Token) : Readings Statement :=
  closedTypes.bind fun types => declaredReadings opening.span types (types.getLast?.getD "")

/-- An opening bracket, types and what is declared behind them make up a declaration. -/
theorem readings_of_functionReadings {opening : Token} (ho : opening.is .compareOp "<" = true)
    {w : List Token} {s : Statement} (h : functionReadings opening w s) :
    Phrase.statement.readings id (opening :: w) s := by
  obtain ⟨⟨⟨d, rfl⟩, ⟨⟨hc⟩⟩⟩, ⟨⟨hn⟩, ⟨⟨d', rfl⟩, ⟨⟨hs⟩⟩⟩⟩⟩ := h
  rw [List.append_assoc]
  refine ⟨.function _ _ _ _ ho hc hn hs d d', ?_⟩
  rw [List.getLast?_concat, List.dropLast_concat]
  rfl

/-- The last type is that of the result, and a list without one is an error of its own. -/
theorem traces_functionDeclaration (rounds : Nat) {opening : Token}
    (hcurrent : c.current = some opening) (ho : opening.is .compareOp "<" = true) :
    Traces (Phrase.statement.readings id) (functionDeclaration rounds) c := by
  have hdeclared (types : List String) := realizes_declared rounds opening.span types
    (types.getLast?.getD "")
  refine .within <| .look ?_
  rw [Cursor.currentSpan_of_current hcurrent]
  refine ⟨fun hread => ?_, fun he hend => ?_⟩
  · obtain ⟨types, c₁, htypes, hread⟩ := bind_eq_ok hread
    obtain ⟨opening', -, ⟨rfl, -⟩ | ⟨w, hw, hword⟩⟩ := typeList_eq_ok htypes
    · cases hread
    · obtain rfl := Option.some.inj (hw.current_eq.symm.trans hcurrent)
      rw [getLast?_of_closedTypes hword] at hread
      obtain ⟨v, hv, hrest⟩ := ((hdeclared types).traces c₁).read hread
      exact ⟨_, hw.append hv, readings_of_functionReadings ho (.mk hword hrest)⟩
  · rcases bind_eq_error he with he | ⟨types, c₁, htypes, he⟩
    · obtain ⟨w, hw, hopens⟩ := typeList_opens hcurrent he hend
      obtain ⟨v, hv, s, hword⟩ := Readings.opens_bind hopens fun types => (hdeclared types).supply
      exact ⟨_, hw, v, hv, s, readings_of_functionReadings ho hword⟩
    · obtain ⟨opening', -, ⟨rfl, -⟩ | ⟨w, hw, hword⟩⟩ := typeList_eq_ok htypes
      · cases he
        contradiction
      · obtain rfl := Option.some.inj (hw.current_eq.symm.trans hcurrent)
        rw [getLast?_of_closedTypes hword] at he
        obtain ⟨u, hu, v, hv, s, hrest⟩ := ((hdeclared types).traces c₁).opens he hend
        refine ⟨opening' :: w ++ u, by rw [hw.items_eq, hu, List.map_append], v, hv, s, ?_⟩
        rw [List.append_assoc]
        exact readings_of_functionReadings ho (.mk hword hrest)

theorem realizes_statement (rounds : Nat) :
    Realizes (Phrase.statement.readings id) (statement rounds) := by
  refine ⟨fun c => .look ?_, (realizes_expressionStatement rounds).supply⟩
  split
  · next hcomment =>
      refine ((Traces.consume (Cursor.current_of_any hcomment)).map _).mono ?_
      rintro _ _ ⟨⟨ht⟩⟩
      exact ⟨.comment _ (beq_iff_eq.mp ht), rfl⟩
  · refine .look ?_
    split
    · next hopening =>
        obtain ⟨opening, hc, ho⟩ := Cursor.current_of_any hopening
        exact traces_functionDeclaration rounds hc ho
    · refine .look ?_
      split
      · exact (realizes_definition rounds).traces c
      · exact (realizes_expressionStatement rounds).traces c

/-- A program is its statements, one behind the other. -/
theorem realizes_statements (nesting rounds : Nat) :
    Realizes (Phrase.program.readings id) (statements nesting rounds) := by
  have hnone : Opens (Phrase.program.readings id).words [] := .of_mem ⟨_, .noStatement, rfl⟩
  induction rounds with
  | zero => exact .starve hnone
  | succ rounds ih =>
      refine ⟨fun c => .look ?_, hnone⟩
      split
      · exact .pure ⟨.noStatement, rfl⟩
      · have htraces := ((realizes_statement nesting).traces c).bind fun first =>
          ih.map (first :: ·)
        refine htraces.mono ?_
        rintro _ _ ⟨⟨d, rfl⟩, ⟨⟨ds, rfl⟩⟩⟩
        exact ⟨.nextStatement d ds, rfl⟩

/-- The readers of programs stop at the end of the input. -/
theorem current_of_statements {nesting rounds : Nat} {ss : List Statement}
    (h : statements nesting rounds c = .ok ss c') : c'.current = none := by
  induction rounds generalizing c ss with
  | zero => contradiction
  | succ rounds ih =>
      replace h := look_bind_eq_ok h
      split at h
      · next hend =>
          obtain ⟨-, rfl⟩ := pure_eq_ok h
          simpa [Cursor.atEnd] using hend
      · obtain ⟨first, c₁, -, h⟩ := bind_eq_ok h
        obtain ⟨others, c₂, hothers, h⟩ := bind_eq_ok h
        obtain ⟨-, rfl⟩ := pure_eq_ok h
        exact ih hothers

end Parser

/-- Whatever is accepted is error-free and derives from the grammar, with the tree that comes
back as its meaning. -/
theorem Program.derivation_of_ofItems {items : List Token.Item} {endOffset : Nat} {p : Program}
    (h : Program.ofItems items endOffset = .ok p) :
    ∃ w, ∃ d : Derivation .program w, items = w.map .ok ∧ d.meaning = p.statements := by
  simp only [Program.ofItems] at h
  cases hstart : Cursor.ofItems items endOffset with
  | error e => simp [hstart] at h
  | ok c =>
      simp only [hstart] at h
      split at h
      · next ss c' hread =>
          obtain ⟨w, hadv, d, rfl⟩ := ((Parser.realizes_statements _ _).traces c).read hread
          obtain rfl := Except.ok.inj h
          refine ⟨w, d, ?_, rfl⟩
          rw [← Cursor.items_of_ofItems hstart, hadv.items_eq, Cursor.items,
            Parser.current_of_statements hread, List.append_nil]
      · contradiction
      · contradiction

/-- Items that end too early are the tokens of a word with which a program begins. -/
theorem Program.opens_of_unexpectedEnd {items : List Token.Item} {endOffset : Nat}
    {e : ParseError} (h : Program.ofItems items endOffset = .error e)
    (hend : e.isUnexpectedEnd = true) :
    ∃ w, items = w.map .ok ∧ Opens Phrase.program.words w := by
  rcases Program.ofItems_eq_error h with hstart | ⟨c, hstart, hread⟩
  · unfold Cursor.ofItems at hstart
    split at hstart
    · contradiction
    · contradiction
    · obtain rfl := Except.error.inj hstart
      contradiction
  · rw [← Cursor.items_of_ofItems hstart, ← Phrase.words_readings .program id]
    exact ((Parser.realizes_statements _ _).traces c).opens hread hend

end Clausal
