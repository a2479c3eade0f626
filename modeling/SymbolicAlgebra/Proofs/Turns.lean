import SymbolicAlgebra.Proofs.Bindings
import SymbolicAlgebra.Proofs.Outcome
import SymbolicAlgebra.Session

/-!
# What a line does to a session

`Turn` bounds what one answered line may do to the session that answers it: it sets the mode,
unbinds one variable, binds one variable to the value of a formula, or does nothing, and it does
nothing where it is answered with a text. Over a run, the lines that are answered with a text and
those that begin with none of the three command words can be left out; the session after the run is
the same.
-/

namespace SymbolicAlgebra.Session

open Text (trimmed)

variable {s s' s₁ s₂ : Session} {line output : String} {lines rest : List String}

/-- The commands that may change a session, by their first words. -/
def changingWords : List String := [":mode", ":unset", ":let"]

/-- The line begins with the word; blanks before the word do not count. -/
def BeginsWith (line word : String) : Prop := word.toList <+: trimmed line.toList

instance (line word : String) : Decidable (BeginsWith line word) := by
  unfold BeginsWith
  infer_instance

/-- The line is the word and then the name, with any blanks between and around them. -/
def Names (line word name : String) : Prop :=
  ∃ rest, trimmed line.toList = word.toList ++ rest ∧ name = String.ofList (trimmed rest)

/-- The line is the word `:let`, a name, and the text after the first equals sign, if there is
one. -/
def Assigns (line name text : String) : Prop :=
  ∃ rest, trimmed line.toList = ":let".toList ++ rest ∧
    name = String.ofList (trimmed (rest.takeWhile (· ≠ '='))) ∧
    text = String.ofList (rest.dropWhile (· ≠ '=')).tail

/-- What a line, answered with the given output, may do to a session. -/
structure Turn (s : Session) (line output : String) (s' : Session) : Prop where
  settings : s'.settings = s.settings
  isTraced : s'.isTraced = s.isTraced
  mode : s'.mode ≠ s.mode → Names line ":mode" s'.mode.name
  scope : s'.scope ≠ s.scope →
    (∃ name, Names line ":unset" name ∧ s.scope.Loses name s'.scope) ∨
      ∃ name text t value, Assigns line name text ∧ s.settings.parse text = .ok t ∧
        t.evaluate s.scope = .ok value ∧ s.scope.Gains name value s'.scope
  answered : output ≠ "" → s' = s

theorem Names.beginsWith {word name : String} (h : Names line word name) :
    BeginsWith line word := by
  obtain ⟨rest, hrest, -⟩ := h
  exact ⟨rest, hrest.symm⟩

theorem Assigns.beginsWith {name text : String} (h : Assigns line name text) :
    BeginsWith line ":let" := by
  obtain ⟨rest, hrest, -⟩ := h
  exact ⟨rest, hrest.symm⟩

theorem after?_eq_some {word : String} {chars rest : List Char}
    (h : after? word chars = some rest) : chars = word.toList ++ rest := by
  unfold after? at h
  split at h
  · next hword =>
    obtain ⟨tail, rfl⟩ := List.isPrefixOf_iff_prefix.mp hword
    obtain rfl := Option.some.inj h
    simp [← String.length_toList]
  · cases h

/-- How the commands that may change a session are written. -/
def Command.IsWritten (line : String) : Command → Prop
  | .mode name => Names line ":mode" name
  | .unset name => Names line ":unset" name
  | .bind name text => Assigns line name text
  | _ => True

theorem Command.ofLine_isWritten (line : String) : (ofLine line).IsWritten line := by
  unfold ofLine ofChars
  split_ifs
  iterate 4 trivial
  split
  · next rest h => exact ⟨rest, after?_eq_some h, rfl⟩
  · split
    · next rest h => exact ⟨rest, after?_eq_some h, rfl⟩
    · split
      · next rest h => exact ⟨rest, after?_eq_some h, rfl, rfl⟩
      · trivial

theorem reply_eq_more {result : Except Fault (Session × String)}
    (h : s.reply result = .more s' output) : result = .ok (s', output) ∨ s' = s := by
  unfold reply at h
  split at h
  · cases h
    exact .inl rfl
  · cases h
    exact .inr rfl
  · cases h

theorem ofName?_eq_some {name : String} {mode : Mode} (h : Mode.ofName? name = some mode) :
    mode.name = name := by
  simpa using List.find?_some h

theorem bind_eq_ok {name text : String} (h : s.bind name text = .ok s') :
    ∃ t value, s.settings.parse text = .ok t ∧ t.evaluate s.scope = .ok value ∧
      s' = { s with scope := s.scope.set name (some value) } := by
  obtain ⟨t, ht, h⟩ := Outcome.bind_eq_ok.mp h
  obtain ⟨value, hvalue, h⟩ := Outcome.bind_eq_ok.mp h
  obtain ⟨t', hparse, ht⟩ := Outcome.bind_eq_ok.mp ht
  have hread : t' = t := by
    split at ht
    · obtain ⟨-, -, ht⟩ := Outcome.bind_eq_ok.mp ht
      exact Except.ok.inj ht
    · exact Except.ok.inj ht
  exact ⟨t, value, hread ▸ hparse, hvalue, (Except.ok.inj h).symm⟩

theorem Turn.unchanged (s : Session) (line output : String) : s.Turn line output s :=
  ⟨rfl, rfl, fun h => absurd rfl h, fun h => absurd rfl h, fun _ => rfl⟩

/-- Each command keeps to `Turn`. -/
theorem turn_of_answer (hdistinct : s.scope.IsDistinct) (h : s.answer line = .more s' output) :
    s.Turn line output s' := by
  have hwritten := Command.ofLine_isWritten line
  unfold answer at h
  cases hcommand : Command.ofLine line with
  | nothing | help =>
    simp only [hcommand, perform, Reply.more.injEq] at h
    obtain ⟨rfl, -⟩ := h
    exact .unchanged s line output
  | quit => simp [hcommand, perform] at h
  | scope | calculate text =>
    simp only [hcommand, perform] at h
    rcases reply_eq_more h with h | rfl
    · obtain ⟨text, -, h⟩ := Outcome.bind_eq_ok.mp h
      obtain ⟨rfl, -⟩ := Prod.mk.inj (Except.ok.inj h)
      exact .unchanged s line output
    · exact .unchanged s' line output
  | mode name =>
    simp only [hcommand, perform] at h
    split at h
    · next mode hmode =>
      obtain ⟨rfl, rfl⟩ := Reply.more.inj h
      rw [hcommand, ← ofName?_eq_some hmode] at hwritten
      exact ⟨rfl, rfl, fun _ => hwritten, fun h => absurd rfl h, fun h => absurd rfl h⟩
    · obtain ⟨rfl, -⟩ := Reply.more.inj h
      exact .unchanged s line output
  | unset name =>
    simp only [hcommand, perform, Reply.more.injEq] at h
    obtain ⟨rfl, rfl⟩ := h
    rw [hcommand] at hwritten
    refine ⟨rfl, rfl, fun h => absurd rfl h, fun hchanged => ?_, fun h => absurd rfl h⟩
    exact .inl ⟨name, hwritten, (Scope.remove_loses hdistinct name).resolve_left hchanged⟩
  | bind name text =>
    simp only [hcommand, perform] at h
    rcases reply_eq_more h with h | rfl
    · obtain ⟨s₁, hbind, h⟩ := Outcome.bind_eq_ok.mp h
      obtain ⟨rfl, rfl⟩ := Prod.mk.inj (Except.ok.inj h)
      obtain ⟨t, value, hparse, hvalue, rfl⟩ := bind_eq_ok hbind
      rw [hcommand] at hwritten
      refine ⟨rfl, rfl, fun h => absurd rfl h, fun _ => ?_, fun h => absurd rfl h⟩
      exact .inr ⟨name, text, t, value, hwritten, hparse, hvalue, Scope.gains_set _ _ _⟩
    · exact .unchanged s' line output

theorem Turn.isDistinct (h : s.Turn line output s') (hs : s.scope.IsDistinct) :
    s'.scope.IsDistinct := by
  by_cases hscope : s'.scope = s.scope
  · rwa [hscope]
  · rcases h.scope hscope with ⟨_, -, hloses⟩ | ⟨_, _, _, _, -, -, -, hgains⟩
    · exact hloses.isDistinct hs
    · exact hgains.isDistinct hs

theorem Turn.eq_of_not_beginsWith (h : s.Turn line output s')
    (hwords : ∀ word ∈ changingWords, ¬ BeginsWith line word) : s' = s := by
  simp only [changingWords, List.forall_mem_cons] at hwords
  obtain ⟨hmode, hunset, hlet, -⟩ := hwords
  have hmode' : s'.mode = s.mode := by
    by_contra hne
    exact hmode (h.mode hne).beginsWith
  have hscope' : s'.scope = s.scope := by
    by_contra hne
    rcases h.scope hne with ⟨name, hnames, -⟩ | ⟨name, text, -, -, hassigns, -⟩
    · exact hunset hnames.beginsWith
    · exact hlet hassigns.beginsWith
  obtain ⟨settings, isTraced, scope, mode⟩ := s'
  obtain ⟨hsettings, htraced, -⟩ := h
  simp_all

/-- The session after some lines, unless a line ends it. -/
def advance? (s : Session) : List String → Option Session
  | [] => some s
  | line :: rest =>
    match s.answer line with
    | .more s' _ => s'.advance? rest
    | _ => none

/-- The sessions that lines lead to. -/
def IsReachable (s : Session) : Prop :=
  ∃ settings s₀ lines, start settings = .ok s₀ ∧ s₀.advance? lines = some s

/-- Of some lines, those that begin with a command that may change the session and are answered with
no text. -/
def changingLines (s : Session) : List String → List String
  | [] => []
  | line :: rest =>
    match s.answer line with
    | .more s' output =>
      if output = "" ∧ ∃ word ∈ changingWords, BeginsWith line word then
        line :: s'.changingLines rest
      else s'.changingLines rest
    | _ => []

theorem advance?_cons (h : s.advance? (line :: rest) = some s₁) :
    ∃ s' output, s.answer line = .more s' output ∧ s'.advance? rest = some s₁ := by
  rw [advance?] at h
  split at h
  · next s' output hanswer => exact ⟨s', output, hanswer, h⟩
  · cases h

theorem isDistinct_of_advance? (hs : s.scope.IsDistinct) (h : s.advance? lines = some s') :
    s'.scope.IsDistinct := by
  induction lines generalizing s with
  | nil =>
    obtain rfl := Option.some.inj h
    exact hs
  | cons line rest ih =>
    obtain ⟨s₁, output, hanswer, hrest⟩ := advance?_cons h
    exact ih ((turn_of_answer hs hanswer).isDistinct hs) hrest

theorem IsReachable.isDistinct (h : s.IsReachable) : s.scope.IsDistinct := by
  obtain ⟨settings, s₀, lines, hstart, hlines⟩ := h
  obtain ⟨n, -, hstart⟩ := Outcome.bind_eq_ok.mp hstart
  obtain rfl := Except.ok.inj hstart
  refine isDistinct_of_advance? ?_ hlines
  exact List.nodup_nil

/-- What a session prints from some lines on is what it prints up to them and then what the session
that they lead to prints. -/
theorem play_append (h : s.advance? lines = some s') (before : String) (rest : List String) :
    ∃ parts output, (s.play before (lines ++ rest)).parts = parts ++ (s'.play output rest).parts ∧
      (s.play before (lines ++ rest)).fault = (s'.play output rest).fault := by
  induction lines generalizing s before with
  | nil =>
    obtain rfl := Option.some.inj h
    exact ⟨[], before, rfl, rfl⟩
  | cons line lines ih =>
    obtain ⟨s₁, output, hanswer, hlines⟩ := advance?_cons h
    obtain ⟨parts, output', hparts, hfault⟩ := ih hlines output
    exact ⟨(before ++ s.promptText) :: parts, output', by simp [play, hanswer, hparts],
      by simp [play, hanswer, hfault]⟩

/-- The lines that change nothing can be left out of a run. -/
theorem advance?_changingLines (hs : s.scope.IsDistinct) (h : s.advance? lines = some s') :
    s.advance? (s.changingLines lines) = some s' := by
  induction lines generalizing s with
  | nil => exact h
  | cons line rest ih =>
    obtain ⟨s₁, output, hanswer, hrest⟩ := advance?_cons h
    have hturn := turn_of_answer hs hanswer
    have hlater := ih (hturn.isDistinct hs) hrest
    by_cases hkept : output = "" ∧ ∃ word ∈ changingWords, BeginsWith line word
    · simp [changingLines, hanswer, hkept, advance?, hlater]
    · have hsame : s₁ = s := by
        by_cases houtput : output = ""
        · exact hturn.eq_of_not_beginsWith fun word hword hbegins =>
            hkept ⟨houtput, word, hword, hbegins⟩
        · exact hturn.answered houtput
      subst hsame
      simpa only [changingLines, hanswer, if_neg hkept] using hlater

/-- A line changes the mode or the scope of a reachable session only as a command that sets the
mode, unbinds a variable or binds one, and leaves both as they were where it is answered with a
text. A run comes to the same session without the lines that are answered with a text or begin with
no such command. -/
theorem changes_only_by_commands (h : s.IsReachable) :
    (∀ line s' output, s.answer line = .more s' output → s.Turn line output s') ∧
      (∀ line s' output, s.answer line = .more s' output →
        (∀ word ∈ changingWords, ¬ BeginsWith line word) → s' = s) ∧
      ∀ lines s', s.advance? lines = some s' → s.advance? (s.changingLines lines) = some s' :=
  ⟨fun _ _ _ => turn_of_answer h.isDistinct,
    fun _ _ _ hanswer => (turn_of_answer h.isDistinct hanswer).eq_of_not_beginsWith,
    fun _ _ => advance?_changingLines h.isDistinct⟩

/-- Under the default settings `:let x` binds `x` to zero, the value of the empty text, and
`:unset x` leaves the scope empty. -/
theorem changes_only_by_commands_unset :
    ∃ s₀ s s', start {} = .ok s₀ ∧ s₀.advance? [":let x"] = some s ∧ s.scope.names = ["x"] ∧
      s.answer ":unset x" = .more s' "" ∧ s.Turn ":unset x" "" s' ∧ s'.scope.names = [] := by
  let s₀ : Session := ⟨{}, false, {}, .evaluate⟩
  let s : Session := { s₀ with scope := { bindings := [("x", some .zero)] } }
  let s' : Session := { s₀ with scope := {} }
  have hbind : s₀.bind "x" "" = .ok s := by
    have hread : s₀.read "" = .ok .zero := by
      have hparse : Settings.parse {} "" = .ok .zero := by cbv
      simp only [read, s₀, hparse]
      rfl
    have hvalue : Tree.evaluate .zero (some s₀.scope) = .ok .zero :=
      withinSteps_of_ne_exhausted (by simp [Tree.evaluateWith, Tree.zero])
    simp only [bind, hread, Outcome.ok_bind, hvalue]
    rfl
  have hlet : s₀.advance? [":let x"] = some s := by
    have hcommand : Command.ofLine ":let x" = .bind "x" "" := by decide
    simp only [advance?, answer, hcommand, perform, hbind]
    rfl
  have hunset : s.answer ":unset x" = .more s' "" := by
    have hcommand : Command.ofLine ":unset x" = .unset "x" := by decide
    simp only [answer, hcommand, perform]
    rfl
  have hreachable : s.IsReachable := ⟨{}, s₀, [":let x"], rfl, hlet⟩
  have hturn := (changes_only_by_commands hreachable).1 _ _ _ hunset
  exact ⟨s₀, s, s', rfl, hlet, rfl, hunset, hturn, rfl⟩

end SymbolicAlgebra.Session
