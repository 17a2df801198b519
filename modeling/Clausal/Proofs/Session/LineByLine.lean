import Mathlib
import Clausal.Proofs.Evaluation.Purity
import Clausal.Proofs.Evaluation.Relabeling
import Clausal.Proofs.Grammar.Completeness
import Clausal.Proofs.Grammar.Conditions
import Clausal.Proofs.Grammar.Moving
import Clausal.Proofs.Grammar.Soundness
import Clausal.Proofs.Session.Nesting
import Clausal.Proofs.Token.Spacing
import Clausal.Session.Repl

/-!
Programs line by line. The loop takes the lines of a program one after the other and runs what it
gathered whenever that can be run, which is at the ends of statements only. So what it runs are the
statements of the program in their order, a few at a time, and in the end the bindings are those of
the whole program. There is one exception: where a line ends within a statement with so many open
brackets that their count has wrapped around, the loop runs a part of the statement, which fails.
-/

namespace Clausal

open TokenStream

/-- The lines of a source, without the line ends between them. -/
def sourceLines (source : String) : List String :=
  (source.toList.splitOn '\n').map String.ofList

/-- The items of a source are those of its lines. -/
theorem flatMap_sourceLines (source : String) :
    (sourceLines source).flatMap (bareItems ·.toList) = bareItems source.toList := by
  rw [sourceLines, List.flatMap_map]
  simp only [String.toList_ofList]
  rw [← bareItems_intercalate, List.intercalate_splitOn]

/-- While some lines wait, the test passes what is gathered up to the end of one of the lines to
come, although brackets are open there. -/
def Miscounts (waiting coming : List String) : Prop :=
  ∃ front w, front <+: coming ∧ (waiting ++ front).flatMap (bareItems ·.toList) = w.map .ok ∧
    Miscounted w

namespace Repl

/-- The loop takes the lines one after the other. None of them is a command, and every input that
is run has a value. -/
inductive Takes (terminal : Bool) : Repl → List String → Repl → Prop
  | nil (r : Repl) : Takes terminal r [] r
  | cons {r r' r'' : Repl} {line : String} {lines : List String} {output : Output}
      (noCommand : (r.buffer.isEmpty && isCommand line) = false)
      (succeeds : isInputComplete (r.buffer ++ line ++ "\n") = true →
        ∃ v s, r.session.eval (r.buffer ++ line ++ "\n") = (.ok v, s))
      (h : r.feed terminal line = some (output, r')) (later : Takes terminal r' lines r'') :
      Takes terminal r (line :: lines) r''

/-- Some lines wait, and together with the lines to come they are a program, which leads to an
interpreter, where spans are ignored. -/
structure Midway (r : Repl) (waiting coming : List String) (final : Interpreter) : Prop where
  buffer : r.buffer.toList = waiting.flatMap (·.toList ++ ['\n'])
  incomplete : waiting = [] ∨ isInputComplete r.buffer = false
  program : ∃ (w : List Token) (d : Derivation .program w) (v : Value),
    (waiting ++ coming).flatMap (bareItems ·.toList) = w.map .ok ∧
      r.session.interpreter.bare.runFrom .null d.meaning = (.ok v, final)

end Repl

theorem Derivation.meaning_nil (d : Derivation .program []) : d.meaning = [] := by
  have h := (d.ofItems_eq_ok 0).symm.trans (Derivation.noStatement.ofItems_eq_ok 0)
  exact congrArg Program.statements (Except.ok.inj h)

/-- What has the tokens of a program, up to places, is read to that program, up to places. -/
theorem exists_parse_of_derivation {input : String} {w : List Token}
    (hitems : bareItems input.toList = w.map .ok) (d : Derivation .program w) :
    ∃ p, parseSource input = .ok p ∧ p.statements.map (·.bare) = d.meaning := by
  have hread := Program.ofItems_bareItems input
  rw [hitems, d.ofItems_eq_ok] at hread
  cases hparse : Program.parse input with
  | error e =>
      rw [hparse] at hread
      cases hread
  | ok p =>
      rw [hparse] at hread
      refine ⟨p, by rw [parseSource, hparse]; rfl, ?_⟩
      exact congrArg Program.statements (Except.ok.inj hread).symm

/-- An interpreter runs such an input as it runs the program. -/
theorem Interpreter.runProgram_of_derivation {i j : Interpreter} {input : String} {w : List Token}
    {v : Value} (hitems : bareItems input.toList = w.map .ok) (d : Derivation .program w)
    (hrun : i.bare.runFrom .null d.meaning = (.ok v, j)) :
    ∃ p v' j', parseSource input = .ok p ∧ i.runProgram p = (.ok v', j') ∧ j'.bare = j := by
  obtain ⟨p, hparse, hp⟩ := exists_parse_of_derivation hitems d
  have hanswer := i.runFrom_bare .null p.statements
  rw [hp] at hanswer
  cases houtcome : i.runFrom .null p.statements with
  | mk outcome j' =>
      rw [houtcome] at hanswer
      obtain ⟨hvalue, rfl⟩ := Prod.mk.inj (hrun.symm.trans hanswer)
      cases outcome with
      | ok v' => exact ⟨p, v', j', hparse, houtcome, rfl⟩
      | error e => cases hvalue

/-- A session runs such an input as it runs the program. -/
theorem Session.eval_of_derivation {s : Session} {input : String} {w : List Token} {v : Value}
    {i : Interpreter} (hitems : bareItems input.toList = w.map .ok) (d : Derivation .program w)
    (hrun : s.interpreter.bare.runFrom .null d.meaning = (.ok v, i)) :
    ∃ v' i', s.eval input = (.ok v', { s with interpreter := i' }) ∧ i'.bare = i := by
  obtain ⟨p, v', i', hparse, hanswer, hi'⟩ :=
    Interpreter.runProgram_of_derivation hitems d hrun
  refine ⟨v', i', ?_, hi'⟩
  simp only [eval_eq, hparse, hanswer]

namespace Interpreter

/-- Statements that all run can be run in two parts. -/
theorem runFrom_append_ok {i j : Interpreter} {last v : Value} {ss ss' : List Statement}
    (h : i.runFrom last (ss ++ ss') = (.ok v, j)) :
    ∃ k v', i.runFrom last ss = (.ok v', k) ∧ k.runFrom v' ss' = (.ok v, j) := by
  induction ss generalizing i last with
  | nil => exact ⟨i, last, rfl, h⟩
  | cons s ss ih =>
      rw [List.cons_append] at h
      cases hs : i.runStatement s with
      | mk outcome k =>
          cases outcome with
          | ok v' =>
              rw [runFrom_cons_ok hs] at h ⊢
              exact ih h
          | error e =>
              rw [runFrom_cons_error hs] at h
              cases (Prod.mk.inj h).1

/-- What statements do does not depend on the value before them. -/
theorem runFrom_ok_of_ok {i j : Interpreter} {last v : Value} {ss : List Statement}
    (h : i.runFrom last ss = (.ok v, j)) (last' : Value) :
    ∃ v', i.runFrom last' ss = (.ok v', j) := by
  cases ss with
  | nil =>
      obtain ⟨-, rfl⟩ := Prod.mk.inj h
      exact ⟨last', rfl⟩
  | cons s ss => exact ⟨v, h⟩

end Interpreter

/-- A line that looks like a command is no line of a program: nothing starts with a colon. -/
theorem exists_error_of_isCommand {line : String} (h : Repl.isCommand line = true) :
    ∃ e items, bareItems line.toList = .error e :: items := by
  unfold Repl.isCommand at h
  split at h
  · next cs hcs =>
    rw [bareItems, itemsFrom_eq, read?, hcs]
    exact ⟨_, _, rfl⟩
  · contradiction

section Moved

variable (o : Nat → Nat) (ts : List Token)

theorem nesting_moved : nesting (ts.map (·.moved o)) = nesting ts := by
  rw [nesting, nesting, List.foldr_map]
  rfl

theorem passes_moved_iff : Passes (ts.map (·.moved o)) ↔ Passes ts := by
  have hcount : bracketCount (ts.map (·.moved o)) = bracketCount ts := by
    rw [bracketCount, bracketCount, List.foldl_map]
    rfl
  rw [Passes, Passes, hcount, List.getLast?_map]
  cases ts.getLast? with
  | none => rfl
  | some t => simp [Token.ends, Token.moved]

end Moved

/-- The test of an input looks at its tokens only, and not at their places. -/
theorem isInputComplete_iff_of_bareItems {input : String} {w : List Token}
    (h : bareItems input.toList = w.map .ok) : isInputComplete input = true ↔ Passes w := by
  obtain ⟨ts, hitems, rfl⟩ := exists_tokens_of_bareItems h
  rw [isInputComplete_iff hitems, passes_moved_iff]

/-- What closes the brackets that it opens makes no difference to what is miscounted after it. -/
theorem miscounted_append_iff {u : List Token} (hu : nesting u = 0) (v : List Token) :
    Miscounted (u ++ v) ↔ Miscounted v := by
  cases v with
  | nil => simp [Miscounted, hu]
  | cons t v =>
      rw [Miscounted, Miscounted, Passes, Passes, bracketCount_append hu, nesting_append, hu,
        Int.zero_add, List.getLast?_append_of_ne_nil u (List.cons_ne_nil t v)]

namespace Miscounts

variable {waiting coming : List String} {line : String}

/-- A line joins those that wait. -/
theorem cons_iff (h : ∀ w, waiting.flatMap (bareItems ·.toList) = w.map .ok → ¬ Miscounted w) :
    Miscounts waiting (line :: coming) ↔ Miscounts (waiting ++ [line]) coming := by
  constructor
  · rintro ⟨front, w, hfront, hw, hmiscounted⟩
    cases front with
    | nil =>
        rw [List.append_nil] at hw
        exact absurd hmiscounted (h w hw)
    | cons line' front =>
        obtain ⟨rfl, hlater⟩ := List.cons_prefix_cons.mp hfront
        exact ⟨front, w, hlater, by rwa [List.append_assoc], hmiscounted⟩
  · rintro ⟨front, w, hfront, hw, hmiscounted⟩
    exact ⟨line :: front, w, List.cons_prefix_cons.mpr ⟨rfl, hfront⟩,
      by rwa [List.append_assoc] at hw, hmiscounted⟩

/-- Lines that close their brackets may be taken away. -/
theorem iff_of_nesting {u : List Token} (hitems : waiting.flatMap (bareItems ·.toList) = u.map .ok)
    (hu : nesting u = 0) : Miscounts waiting coming ↔ Miscounts [] coming := by
  constructor
  · rintro ⟨front, w, hfront, hw, hmiscounted⟩
    rw [List.flatMap_append, hitems] at hw
    obtain ⟨u', v, rfl, hu', hv⟩ := List.append_eq_map_iff.mp hw
    obtain rfl := (List.map_inj_right fun _ _ => Except.ok.inj).mp hu'
    exact ⟨front, v, hfront, hv.symm, (miscounted_append_iff hu v).mp hmiscounted⟩
  · rintro ⟨front, v, hfront, hv, hmiscounted⟩
    refine ⟨front, u ++ v, hfront, ?_, (miscounted_append_iff hu v).mpr hmiscounted⟩
    rw [List.nil_append] at hv
    rw [List.flatMap_append, hitems, hv, List.map_append]

/-- It takes so many open brackets that their count wraps around. -/
theorem exists_prefix {source : String} (h : Miscounts [] (sourceLines source)) :
    ∃ u : List Token, u.map .ok <+: (ofSource source).items ∧ 2 ^ 31 ≤ nesting u := by
  obtain ⟨front, w, ⟨later, hlines⟩, hw, hmiscounted⟩ := h
  have hitems := flatMap_sourceLines source
  rw [← hlines, List.flatMap_append, ← List.nil_append front, hw, bareItems] at hitems
  obtain ⟨first, others, hsplit, hfirst, -⟩ := List.map_eq_append_iff.mp hitems.symm
  obtain ⟨u, rfl, rfl⟩ := exists_tokens_of_moved hfirst
  refine ⟨u, ⟨others, hsplit.symm⟩, ?_⟩
  have hopen := hmiscounted.le_nesting
  rwa [nesting_moved] at hopen

end Miscounts

/-- An input in which brackets are open has no value. -/
theorem Session.nesting_of_eval {s s' : Session} {input : String} {v : Value} {w : List Token}
    (hitems : bareItems input.toList = w.map .ok) (h : s.eval input = (.ok v, s')) :
    nesting w = 0 := by
  obtain ⟨ts, hts, rfl⟩ := exists_tokens_of_bareItems hitems
  rw [nesting_moved]
  rw [eval] at h
  rcases parseSource_cases input with ⟨p, -, hprogram⟩ | ⟨e, he, -⟩
  · obtain ⟨w, d, hw, -⟩ := Program.derivation_of_ofItems hprogram
    obtain rfl := List.map_inj_right (fun _ _ => Except.ok.inj) |>.mp (hts.symm.trans hw)
    exact d.nests.1.nesting
  · rw [he] at h
    cases (Prod.mk.inj h).1

namespace Repl

variable {r : Repl} {waiting coming : List String} {line : String} {final : Interpreter}
  {w : List Token}

theorem bareItems_waiting {input : String}
    (hinput : input.toList = waiting.flatMap (·.toList ++ ['\n'])) :
    bareItems input.toList = waiting.flatMap (bareItems ·.toList) := by
  have hlines := bareItems_flatMap (waiting.map String.toList)
  rwa [List.flatMap_map, List.flatMap_map, ← hinput] at hlines

/-- A line that comes while none waits is no command, as it is read without error. -/
theorem Midway.noCommand (h : Midway r waiting (line :: coming) final) :
    (r.buffer.isEmpty && isCommand line) = false := by
  refine Bool.eq_false_iff.mpr fun hcommand => ?_
  obtain ⟨hbuffer, hline⟩ := Bool.and_eq_true_iff.mp hcommand
  obtain ⟨e, items, herror⟩ := exists_error_of_isCommand hline
  have hnone : waiting = [] := by
    have hchars := h.buffer
    rw [String.isEmpty_iff.mp hbuffer] at hchars
    cases waiting with
    | nil => rfl
    | cons line waiting => simp at hchars
  obtain ⟨w, -, -, hitems, -⟩ := h.program
  rw [hnone, List.nil_append, List.flatMap_cons, herror] at hitems
  cases w with
  | nil => cases hitems
  | cons t w => cases (List.cons.inj hitems).1

/-- Blank input is the program without statements. -/
theorem parseSource_of_blank {input : String}
    (h : (Text.dropBlank input.toList).isEmpty = true) : parseSource input = .ok ⟨[]⟩ := by
  have hitems : (ofSource input).items = [] := by
    rw [items, itemsFrom_eq]
    simp only [ofSource, read?, List.isEmpty_iff.mp h]
  rw [parseSource, Program.parse, Program.ofStream, hitems]
  rfl

/-- Running an input leaves the session as evaluating it does. -/
theorem exists_runInput_of_eval {s s' : Session} {input : String} {v : Value}
    (h : s.eval input = (.ok v, s')) (terminal : Bool) :
    ∃ output, runInput terminal s input = (output, s') := by
  unfold runInput
  split
  · next hblank =>
    rw [Session.eval_eq, parseSource_of_blank hblank] at h
    obtain ⟨-, rfl⟩ := Prod.mk.inj h
    exact ⟨_, rfl⟩
  · rw [h]
    exact ⟨_, rfl⟩

/-- What waits together with the next line has no errors, and the program goes on after it. -/
theorem Midway.exists_words (h : Midway r waiting (line :: coming) final) :
    ∃ (u w : List Token) (d : Derivation .program (u ++ w)) (v : Value),
      bareItems (r.buffer ++ line ++ "\n").toList = u.map .ok ∧
        (waiting ++ [line]).flatMap (bareItems ·.toList) = u.map .ok ∧
        coming.flatMap (bareItems ·.toList) = w.map .ok ∧
        r.session.interpreter.bare.runFrom .null d.meaning = (.ok v, final) := by
  obtain ⟨w, d, v, hitems, hrun⟩ := h.program
  have hchars : (r.buffer ++ line ++ "\n").toList =
      (waiting ++ [line]).flatMap (·.toList ++ ['\n']) := by
    simp [h.buffer]
  rw [← List.singleton_append, ← List.append_assoc, List.flatMap_append] at hitems
  obtain ⟨u, w, rfl, hu, hw⟩ := List.append_eq_map_iff.mp hitems
  exact ⟨u, w, d, v, (bareItems_waiting hchars).trans hu.symm, hu.symm, hw.symm, hrun⟩

/-- Where the test passes what waits and the next line, and is right about it, these end with a
statement of the program and are run. -/
theorem Midway.run (h : Midway r waiting (line :: coming) final)
    (hcomplete : isInputComplete (r.buffer ++ line ++ "\n") = true) {u : List Token}
    (hu : (waiting ++ [line]).flatMap (bareItems ·.toList) = u.map .ok)
    (hcounted : ¬ Miscounted u) (terminal : Bool) :
    nesting u = 0 ∧ (∃ v s, r.session.eval (r.buffer ++ line ++ "\n") = (.ok v, s)) ∧
      ∃ output r', r.feed terminal line = some (output, r') ∧ Midway r' [] coming final := by
  obtain ⟨u', w, d, v, hinput, hu', hw, hrun⟩ := h.exists_words
  obtain rfl := (List.map_inj_right fun _ _ => Except.ok.inj).mp (hu.symm.trans hu')
  have hpasses := (isInputComplete_iff_of_bareItems hinput).mp hcomplete
  obtain ⟨d₁, d₂, hmeaning⟩ := d.exists_split rfl (hpasses.complete hcounted)
  rw [hmeaning] at hrun
  obtain ⟨k, v₁, hfirst, hothers⟩ := Interpreter.runFrom_append_ok hrun
  obtain ⟨v₂, hothers⟩ := Interpreter.runFrom_ok_of_ok hothers .null
  obtain ⟨v₃, i, heval, rfl⟩ := Session.eval_of_derivation hinput d₁ hfirst
  obtain ⟨output, houtput⟩ := exists_runInput_of_eval heval terminal
  refine ⟨d₁.nests.1.nesting, ⟨v₃, _, heval⟩, output, ⟨⟨r.session.config, i⟩, ""⟩, ?_, ?_⟩
  · simp only [feed, h.noCommand, Bool.false_eq_true, if_false]
    rw [if_pos hcomplete, houtput]
  · exact ⟨rfl, .inl rfl, w, d₂, v₂, hw, hothers⟩

/-- Otherwise the line waits with the others. -/
theorem Midway.wait (h : Midway r waiting (line :: coming) final)
    (hincomplete : isInputComplete (r.buffer ++ line ++ "\n") = false) (terminal : Bool) :
    ∃ output r', r.feed terminal line = some (output, r') ∧
      Midway r' (waiting ++ [line]) coming final := by
  obtain ⟨w, d, v, hitems, hrun⟩ := h.program
  refine ⟨.nothing, { r with buffer := r.buffer ++ line ++ "\n" }, ?_, ?_⟩
  · simp only [feed, h.noCommand, Bool.false_eq_true, if_false]
    rw [if_neg (Bool.eq_false_iff.mp hincomplete)]
  · exact ⟨by simp [h.buffer], .inr hincomplete, w, d, v, by rwa [List.append_assoc], hrun⟩

/-- What waits has been tested. -/
theorem Midway.not_miscounted (h : Midway r waiting coming final)
    (hitems : waiting.flatMap (bareItems ·.toList) = w.map .ok) : ¬ Miscounted w := by
  rintro ⟨hpasses, hopen⟩
  rcases h.incomplete with rfl | hincomplete
  · rw [List.map_eq_nil_iff.mp hitems.symm] at hopen
    exact Int.lt_irrefl 0 hopen
  · rw [← bareItems_waiting h.buffer] at hitems
    rw [(isInputComplete_iff_of_bareItems hitems).mpr hpasses] at hincomplete
    contradiction

/-- After the last line nothing waits: a program does not end within a statement. -/
theorem Midway.done (h : Midway r waiting [] final) :
    r.buffer = "" ∧ r.session.interpreter.bare = final ∧ ¬ Miscounts waiting [] := by
  obtain ⟨w, d, v, hitems, hrun⟩ := h.program
  have hcounted : ¬ Miscounts waiting [] := by
    rintro ⟨front, w', hfront, hw', hmiscounted⟩
    rw [List.prefix_nil.mp hfront, List.append_nil] at hw'
    exact h.not_miscounted hw' hmiscounted
  rw [List.append_nil, ← bareItems_waiting h.buffer] at hitems
  rcases h.incomplete with rfl | hincomplete
  · have hbuffer : r.buffer = "" := String.toList_eq_nil_iff.mp h.buffer
    rw [hbuffer] at hitems
    obtain rfl : w = [] := List.map_eq_nil_iff.mp (hitems.symm.trans bareItems_nil)
    rw [d.meaning_nil] at hrun
    exact ⟨hbuffer, (Prod.mk.inj hrun).2, hcounted⟩
  · rw [(isInputComplete_iff_of_bareItems hitems).mpr d.passes] at hincomplete
    contradiction

/-- Where the loop takes a line, it takes the line and the others if it takes the others after
it. -/
theorem takes_cons_iff {terminal : Bool} {r r' r'' : Repl} {output : Output}
    (noCommand : (r.buffer.isEmpty && isCommand line) = false)
    (succeeds : isInputComplete (r.buffer ++ line ++ "\n") = true →
      ∃ v s, r.session.eval (r.buffer ++ line ++ "\n") = (.ok v, s))
    (hfeed : r.feed terminal line = some (output, r')) :
    Takes terminal r (line :: coming) r'' ↔ Takes terminal r' coming r'' := by
  refine ⟨fun htakes => ?_, .cons noCommand succeeds hfeed⟩
  cases htakes with
  | cons _ _ hfeed' later =>
      obtain ⟨-, rfl⟩ := Prod.mk.inj (Option.some.inj (hfeed.symm.trans hfeed'))
      exact later

/-- The step of the loop. What waits together with the next line is a part of a statement that has
been miscounted and fails, or it ends with a statement and is run, or it waits for more. -/
theorem Midway.step (h : Midway r waiting (line :: coming) final) (terminal : Bool) :
    (Miscounts waiting (line :: coming) ∧ ∀ r', ¬ Takes terminal r (line :: coming) r') ∨
      ∃ r' waiting', Midway r' waiting' coming final ∧
        (Miscounts waiting (line :: coming) ↔ Miscounts waiting' coming) ∧
        ∀ r'', Takes terminal r (line :: coming) r'' ↔ Takes terminal r' coming r'' := by
  obtain ⟨u, -, -, -, hinput, hu, -, -⟩ := h.exists_words
  have hjoins : Miscounts waiting (line :: coming) ↔ Miscounts (waiting ++ [line]) coming :=
    Miscounts.cons_iff fun _ hw => h.not_miscounted hw
  cases hcomplete : isInputComplete (r.buffer ++ line ++ "\n") with
  | false =>
      obtain ⟨output, r', hfeed, hmidway⟩ := h.wait hcomplete terminal
      have hsucceeds (htrue : isInputComplete (r.buffer ++ line ++ "\n") = true) :
          ∃ v s, r.session.eval (r.buffer ++ line ++ "\n") = (.ok v, s) :=
        absurd (hcomplete.symm.trans htrue) Bool.false_ne_true
      exact .inr ⟨r', waiting ++ [line], hmidway, hjoins,
        fun _ => takes_cons_iff h.noCommand hsucceeds hfeed⟩
  | true =>
      by_cases hcounted : Miscounted u
      · refine .inl ⟨hjoins.mpr ⟨[], u, List.nil_prefix, by rwa [List.append_nil], hcounted⟩, ?_⟩
        intro r' htakes
        cases htakes with
        | cons _ succeeds _ _ =>
            obtain ⟨v, s, heval⟩ := succeeds hcomplete
            exact Int.ne_of_gt hcounted.2 (Session.nesting_of_eval hinput heval)
      · obtain ⟨hnesting, hsucceeds, output, r', hfeed, hmidway⟩ :=
          h.run hcomplete hu hcounted terminal
        exact .inr ⟨r', [], hmidway, hjoins.trans (Miscounts.iff_of_nesting hu hnesting),
          fun _ => takes_cons_iff h.noCommand (fun _ => hsucceeds) hfeed⟩

/-- The loop gets through the lines to come, unless their brackets are miscounted. -/
theorem Midway.exists_takes_iff (h : Midway r waiting coming final) (terminal : Bool) :
    (∃ r', Takes terminal r coming r') ↔ ¬ Miscounts waiting coming := by
  induction coming generalizing r waiting with
  | nil => exact ⟨fun _ => h.done.2.2, fun _ => ⟨r, .nil r⟩⟩
  | cons line coming ih =>
      rcases h.step terminal with ⟨hmiscounts, hfails⟩ | ⟨r', waiting', hmidway, hlater, htakes⟩
      · exact iff_of_false (fun ⟨r', htakes⟩ => hfails r' htakes) (not_not_intro hmiscounts)
      · rw [hlater, ← ih hmidway]
        exact exists_congr htakes

theorem Midway.final_of_takes {terminal : Bool} {r' : Repl} (h : Midway r waiting coming final)
    (htakes : Takes terminal r coming r') :
    r'.buffer = "" ∧ r'.session.interpreter.bare = final := by
  induction coming generalizing r waiting with
  | nil =>
      cases htakes
      exact ⟨h.done.1, h.done.2.1⟩
  | cons line coming ih =>
      rcases h.step terminal with ⟨-, hfails⟩ | ⟨r'', waiting', hmidway, -, hlater⟩
      · exact absurd htakes (hfails r')
      · exact ih hmidway ((hlater r').mp htakes)

/-- Before its first line the whole program is to come. -/
theorem midway_sourceLines {config : Config} {source : String} {p : Program} {v : Value}
    {i : Interpreter} (hparse : parseSource source = .ok p)
    (hrun : config.interpreter.runProgram p = (.ok v, i)) :
    Midway (new config) [] (sourceLines source) i.bare := by
  have hread := Program.ofItems_bareItems source
  rw [parseSource] at hparse
  cases hprogram : Program.parse source with
  | error e =>
      rw [hprogram] at hparse
      cases hparse
  | ok q =>
      rw [hprogram] at hparse hread
      obtain rfl := Except.ok.inj hparse
      obtain ⟨w, d, hitems, hd⟩ := Program.derivation_of_ofItems hread
      have hbare := config.interpreter.runFrom_bare .null q.statements
      rw [← Interpreter.runProgram, hrun] at hbare
      exact ⟨rfl, .inl rfl, w, d, v.bare, (flatMap_sourceLines source).trans hitems,
        by rw [hd]; exact hbare⟩

/-- Taking a program line by line is the same as running it whole, unless its brackets are
miscounted. If a source is read without error and runs without error, the loop takes its lines one
after the other, no line as a command, whatever it runs has a value, nothing waits in the end, and
the globals are those of the whole run with spans ignored, if and only if at no end of a line the
test passes although brackets are open. For that 2 ^ 31 brackets must be open at one place. -/
theorem takes_sourceLines {config : Config} {source : String} {p : Program} {v : Value}
    {i : Interpreter} (hparse : parseSource source = .ok p)
    (hrun : config.interpreter.runProgram p = (.ok v, i)) (terminal : Bool) :
    ((∃ r, Takes terminal (new config) (sourceLines source) r ∧ r.buffer = "" ∧
        r.session.interpreter.globals.bare = i.globals.bare) ↔
      ¬ Miscounts [] (sourceLines source)) ∧
    ((∀ u : List Token, u.map .ok <+: (ofSource source).items → nesting u < 2 ^ 31) →
      ¬ Miscounts [] (sourceLines source)) := by
  refine ⟨?_, fun hfits hmiscounts => ?_⟩
  · have hmidway := midway_sourceLines hparse hrun
    rw [← hmidway.exists_takes_iff terminal]
    refine ⟨fun ⟨r, htakes, _⟩ => ⟨r, htakes⟩, fun ⟨r, htakes⟩ => ?_⟩
    obtain ⟨hbuffer, hfinal⟩ := hmidway.final_of_takes htakes
    exact ⟨r, htakes, hbuffer, congrArg Interpreter.globals hfinal⟩
  · obtain ⟨u, hu, hopen⟩ := hmiscounts.exists_prefix
    exact absurd (hfits u hu) (Int.not_lt.mpr hopen)

section Enclosed

/-- A function within `n` pairs of parentheses, over two lines. -/
private def enclosedLines (n : Nat) : List (List Char) :=
  [List.replicate n '(' ++ "match x \x7b otherwise -> x;".toList,
    '\x7d' :: (List.replicate n ')' ++ [';'])]

private def enclosedSource (n : Nat) : String := .ofList (['\n'].intercalate (enclosedLines n))

private def bareToken (kind : Token.Kind) (text : String) : Token := ⟨kind, text, ⟨0, 0⟩⟩

private def openWord : List Token :=
  [bareToken .keyword "match", bareToken .identifier "x", bareToken .leftBrace "\x7b",
    bareToken .keyword "otherwise", bareToken .arrow "->", bareToken .identifier "x",
    bareToken .semicolon ";"]

/-- The tokens of the first line, and those of the second one up to its last. -/
private def enclosedFront (n : Nat) : List Token :=
  List.replicate n (bareToken .leftParen "(") ++ openWord

private def enclosedBack (n : Nat) : List Token :=
  bareToken .rightBrace "\x7d" :: List.replicate n (bareToken .rightParen ")")

private def enclosedMatch : Match :=
  ⟨[⟨"x", ⟨0, 0⟩⟩], [.catchAll (.ident "x" ⟨0, 0⟩) ⟨0, 0⟩], ⟨0, 0⟩⟩

private def enclosedExpression : Expr :=
  .matching enclosedMatch.params enclosedMatch.clauses enclosedMatch.span

private theorem bareItems_replicate {c : Char} {kind : Token.Kind} (n : Nat) (rest : List Char)
    (h : ∀ rest, Lexeme.Stands kind [c] rest) :
    bareItems (List.replicate n c ++ rest) =
      (List.replicate n (bareToken kind (.ofList [c]))).map .ok ++ bareItems rest := by
  induction n with
  | zero => rfl
  | succ n ih =>
      have hfirst := bareItems_of_stands (h (List.replicate n c ++ rest))
      rw [List.singleton_append] at hfirst
      rw [List.replicate_succ, List.cons_append, hfirst, ih]
      rfl

private theorem bareItems_enclosed (n : Nat) :
    (enclosedLines n).map bareItems =
      [(enclosedFront n).map .ok, (enclosedBack n ++ [bareToken .semicolon ";"]).map .ok] := by
  have hopen : bareItems "match x \x7b otherwise -> x;".toList = openWord.map .ok := by
    decide +kernel
  have hstop : bareItems [';'] = [.ok (bareToken .semicolon ";")] := by decide +kernel
  have hleft (rest : List Char) : Lexeme.Stands .leftParen ['('] rest := ⟨'(', [], rfl, rfl, rfl⟩
  have hright (rest : List Char) : Lexeme.Stands .rightParen [')'] rest := ⟨')', [], rfl, rfl, rfl⟩
  have hbrace (rest : List Char) : Lexeme.Stands .rightBrace ['\x7d'] rest :=
    ⟨'\x7d', [], rfl, rfl, rfl⟩
  have hback := bareItems_of_stands (hbrace (List.replicate n ')' ++ [';']))
  rw [List.singleton_append, bareItems_replicate n _ hright, hstop] at hback
  rw [enclosedLines, List.map_cons, List.map_singleton, bareItems_replicate n _ hleft, hopen,
    hback, enclosedFront, enclosedBack, List.map_append, List.map_append]
  rfl

private theorem exists_enclosedExpression (n : Nat) :
    ∃ d : Derivation .expression (enclosedFront n ++ enclosedBack n),
      d.meaning = enclosedExpression := by
  induction n with
  | zero =>
      obtain ⟨result, hresult⟩ := Derivation.level_of_primary
        (.ident (bareToken .identifier "x") rfl) rfl BinaryOp.loosest
      have hmatch : ∃ d : Derivation .primary (enclosedFront 0 ++ enclosedBack 0),
          d.meaning = enclosedExpression := by
        refine ⟨.matching (bareToken .keyword "match") (bareToken .leftBrace "\x7b")
          (bareToken .rightBrace "\x7d") rfl rfl rfl
          (.oneBinder (bareToken .identifier "x") rfl)
          (.nextClause (.otherwise (bareToken .keyword "otherwise") (bareToken .arrow "->")
            (bareToken .semicolon ";") rfl rfl rfl result) .noClause), ?_⟩
        simp only [Derivation.meaning, hresult]
        rfl
      obtain ⟨d, hd⟩ := hmatch
      exact d.level_of_primary hd _
  | succ n ih =>
      obtain ⟨d, hd⟩ := ih
      have hword : enclosedFront (n + 1) ++ enclosedBack (n + 1) =
          bareToken .leftParen "(" :: ((enclosedFront n ++ enclosedBack n) ++
            [bareToken .rightParen ")"]) := by
        simp only [enclosedFront, enclosedBack, List.replicate_succ (a := bareToken .leftParen "("),
          List.replicate_succ', List.cons_append, List.append_assoc]
      rw [hword]
      exact Derivation.level_of_primary (.grouping (bareToken .leftParen "(")
        (bareToken .rightParen ")") rfl rfl d) hd _

private theorem exists_run_enclosed (n : Nat) :
    ∃ p v i, parseSource (enclosedSource n) = .ok p ∧
      Config.default.interpreter.runProgram p = (.ok v, i) := by
  obtain ⟨e, he⟩ := exists_enclosedExpression n
  obtain ⟨d, hd⟩ := (Derivation.expression (bareToken .semicolon ";") rfl e).exists_single
  have hmeaning : d.meaning = [.expression enclosedExpression ⟨0, 0⟩] := by
    simp only [hd, Derivation.meaning, he]
    rfl
  have hitems : bareItems (enclosedSource n).toList =
      (enclosedFront n ++ enclosedBack n ++ [bareToken .semicolon ";"]).map .ok := by
    rw [enclosedSource, String.toList_ofList, bareItems_intercalate, List.flatMap_def,
      bareItems_enclosed]
    simp
  obtain ⟨v, i, hrun⟩ : ∃ v i, Config.default.interpreter.bare.runFrom .null d.meaning =
      (.ok v, i) := by
    rw [hmeaning]
    exact ⟨.function ⟨"<anonymous>", ["x"], enclosedMatch⟩, .new (some 10000), by cbv⟩
  obtain ⟨p, v', i', hparse, hprogram, -⟩ := Interpreter.runProgram_of_derivation hitems d hrun
  exact ⟨p, v', i', hparse, hprogram⟩

private theorem sourceLines_enclosed (n : Nat) :
    sourceLines (enclosedSource n) = (enclosedLines n).map .ofList := by
  have hends : ∀ line ∈ enclosedLines n, '\n' ∉ line := by
    simp [enclosedLines, List.mem_replicate]
  rw [sourceLines, enclosedSource, String.toList_ofList,
    List.splitOn_intercalate '\n' hends (List.cons_ne_nil _ _)]

private theorem miscounted_enclosedFront {n : Nat} (hn : n + 1 = 2 ^ 31) :
    Miscounted (enclosedFront n) := by
  have hopen : nesting (List.replicate n (bareToken .leftParen "(")) = n := by
    rw [nesting_opening fun t ht => congrArg Token.kind (List.eq_of_mem_replicate ht),
      List.length_replicate]
  have hnesting : nesting (enclosedFront n) = 2 ^ 31 := by
    rw [enclosedFront, nesting_append, hopen]
    change (n : Int) + 1 = 2 ^ 31
    exact_mod_cast hn
  refine ⟨⟨?_, ?_⟩, by rw [hnesting]; decide⟩
  · rw [Int32.le_iff_toInt_le, toInt_bracketCount, hnesting]
    decide
  · rw [enclosedFront, openWord, List.getLast?_append_of_ne_nil _ (List.cons_ne_nil _ _)]
    simp [Token.ends, bareToken]

private theorem miscounts_enclosed {n : Nat} (hn : n + 1 = 2 ^ 31) :
    Miscounts [] (sourceLines (enclosedSource n)) := by
  refine ⟨[.ofList (List.replicate n '(' ++ "match x \x7b otherwise -> x;".toList)],
    enclosedFront n, ?_, ?_, miscounted_enclosedFront hn⟩
  · rw [sourceLines_enclosed]
    exact ⟨[_], rfl⟩
  · have hfront := (List.cons.inj (bareItems_enclosed n)).1
    rw [List.nil_append, List.flatMap_singleton, String.toList_ofList, hfront]

end Enclosed

/-- A declaration over three lines, with a comment that holds a bracket and a clause that ends with
its line, and a line with a comment after a statement. -/
private def severalLines : String :=
  "bool a = match x \x7b // (\n  otherwise -> x;\n\x7d(true);\na; // done"

private def severalStatements : Program :=
  ⟨[.define "bool" "a"
      (.call (.matching [⟨"x", ⟨15, 16⟩⟩] [.catchAll (.ident "x" ⟨39, 40⟩) ⟨26, 41⟩] ⟨9, 43⟩)
        [.boolean true "true" ⟨44, 48⟩] ⟨9, 49⟩) ⟨0, 50⟩,
    .expression (.ident "a" ⟨51, 52⟩) ⟨51, 53⟩, .comment "// done" ⟨54, 61⟩]⟩

/-- The lines of a short program are taken. Those of a program with 2 ^ 31 brackets open at the end
of a line are not: this many are counted as -2 ^ 31. -/
theorem takes_sourceLines_short_and_deep :
    (parseSource severalLines = .ok severalStatements ∧
      (∃ i, Config.default.interpreter.runProgram severalStatements = (.ok .null, i)) ∧
      ∃ r, Takes false (new Config.default)
          ["bool a = match x \x7b // (", "  otherwise -> x;", "\x7d(true);", "a; // done"] r ∧
        r.buffer = "" ∧
        r.session.interpreter.globals.bare = .ofList [("a", .boolean true)]) ∧
    ∃ p v i, parseSource (enclosedSource 2147483647) = .ok p ∧
      Config.default.interpreter.runProgram p = (.ok v, i) ∧
      ¬ ∃ r, Takes false (new Config.default) (sourceLines (enclosedSource 2147483647)) r ∧
        r.buffer = "" ∧ r.session.interpreter.globals.bare = i.globals.bare := by
  have hitems : (TokenStream.ofSource severalLines).items =
      [.ok ⟨.typeName, "bool", ⟨0, 4⟩⟩, .ok ⟨.identifier, "a", ⟨5, 6⟩⟩,
        .ok ⟨.assign, "=", ⟨7, 8⟩⟩, .ok ⟨.keyword, "match", ⟨9, 14⟩⟩,
        .ok ⟨.identifier, "x", ⟨15, 16⟩⟩, .ok ⟨.leftBrace, "\x7b", ⟨17, 18⟩⟩,
        .ok ⟨.comment, "// (", ⟨19, 23⟩⟩, .ok ⟨.keyword, "otherwise", ⟨26, 35⟩⟩,
        .ok ⟨.arrow, "->", ⟨36, 38⟩⟩, .ok ⟨.identifier, "x", ⟨39, 40⟩⟩,
        .ok ⟨.semicolon, ";", ⟨40, 41⟩⟩, .ok ⟨.rightBrace, "\x7d", ⟨42, 43⟩⟩,
        .ok ⟨.leftParen, "(", ⟨43, 44⟩⟩, .ok ⟨.boolean, "true", ⟨44, 48⟩⟩,
        .ok ⟨.rightParen, ")", ⟨48, 49⟩⟩, .ok ⟨.semicolon, ";", ⟨49, 50⟩⟩,
        .ok ⟨.identifier, "a", ⟨51, 52⟩⟩, .ok ⟨.semicolon, ";", ⟨52, 53⟩⟩,
        .ok ⟨.comment, "// done", ⟨54, 61⟩⟩] := by
    decide +kernel
  have hparse : parseSource severalLines = .ok severalStatements := by
    rw [parseSource, Program.parse, Program.ofStream, hitems]
    rfl
  have hrun : Config.default.interpreter.runProgram severalStatements =
      (.ok .null, ⟨⟨.ofList [("a", .boolean true)], none⟩, .empty (some 10000)⟩) := by
    cbv
  have hlines : sourceLines severalLines =
      ["bool a = match x \x7b // (", "  otherwise -> x;", "\x7d(true);", "a; // done"] := by
    decide +kernel
  have hfits : ∀ u : List Token, u.map .ok <+: (ofSource severalLines).items →
      nesting u < 2 ^ 31 := by
    intro u hu
    have hlength := hu.length_le
    have hnesting := nesting_le_length u
    rw [hitems, List.length_map] at hlength
    simp only [List.length_cons, List.length_nil] at hlength
    omega
  obtain ⟨hshort, hcounted⟩ := takes_sourceLines hparse hrun false
  obtain ⟨r, htakes, hbuffer, hglobals⟩ := hshort.mpr (hcounted hfits)
  rw [hlines] at htakes
  refine ⟨⟨hparse, ⟨_, hrun⟩, r, htakes, hbuffer, hglobals⟩, ?_⟩
  obtain ⟨p, v, i, hdeep, hprogram⟩ := exists_run_enclosed 2147483647
  refine ⟨p, v, i, hdeep, hprogram, fun htaken => ?_⟩
  exact (takes_sourceLines hdeep hprogram false).1.mp htaken (miscounts_enclosed rfl)

end Repl

end Clausal
