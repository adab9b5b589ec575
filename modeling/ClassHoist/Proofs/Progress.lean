import ClassHoist.Proofs.Joined
import ClassHoist.Proofs.SessionAgreement

/-! # Tokens and offset in step

A session counts the tokens that are left and the bytes that have been read apart from each other.
Wherever a node can be read they agree: the next token is the first one of the source that starts at
the offset or behind it, and it starts right there, with a sign that opens something. So every node
that is read takes some of the source, and all of it has been read in the end
(`sessions_in_step`).
-/

namespace ClassHoist.Markup

namespace Session

/-- One step leads from the session to the next. -/
def Leads (source : Text) (session next : Session) : Prop :=
  session.step source = some (some next)

/-- Some steps lead from the start of the source to the session. -/
def Reached (source : Text) : Session → Prop := Relation.ReflTransGen (Leads source) (start source)

/-- A node can be read from the session: no text follows the offset, and the source goes on. -/
def AtNode (source : Text) (session : Session) : Prop :=
  (∃ rest, cutFrom source session.feed.offset = some rest ∧ rest.takeWhile isTextChar = []) ∧
    (session.feed.token source).kind ≠ .endOfFile

end Session

/-- The kinds of token that a node, or the end or next part of one, starts with. -/
def nodeKinds : List TokenKind :=
  [.commentOpen, .tagOpen, .closingOpen, .blockOpen, .specialOpen, .braceOpen, .blockNext, .blockEnd]

variable {source : Text} {cursor : Cursor} {draft : Draft} {session next : Session}

/-- Where no text follows, the tokens that are left are those that start at the offset or behind
it. -/
theorem dropWhile_tokens_of_no_text (within : cursor.In source)
    (noText : cursor.rest.takeWhile isTextChar = []) :
    (tokens source).dropWhile (fun token => token.span.start < cursor.offset) = cursor.tokens := by
  obtain ⟨before, whole, counted⟩ := within.exists_before
  have seam : Seam before cursor.rest := by
    rcases Cursor.rest_of_no_text noText with ended | ⟨tail, tag | brace⟩
    · rw [ended]
      exact .of_nil before
    · rw [tag]
      exact .of_opening (.inl rfl) before tail
    · rw [brace]
      exact .of_opening (.inr rfl) before tail
  have place : (Cursor.start source).offset + Text.bytes before = cursor.offset := by
    rw [counted]
    exact Nat.zero_add _
  have split : (Cursor.start source).rest = before ++ cursor.rest := whole
  have dropped := Cursor.dropWhile_tokens (fun token => token.span.start < cursor.offset) split seam
    (fun token _ early => by rw [place] at early; exact decide_eq_true early)
    (fun token late => by rw [place] at late; exact decide_eq_false (Nat.not_lt_of_le late))
  refine dropped.trans ?_
  rw [Cursor.past, place]

/-- Where no text follows, the next token is the first one that starts at the offset or behind it. -/
theorem find?_tokens_of_no_text (within : cursor.In source)
    (noText : cursor.rest.takeWhile isTextChar = []) :
    (tokens source).find? (fun token => cursor.offset ≤ token.span.start) = some cursor.token := by
  have late : (fun token : Token => !decide (cursor.offset ≤ token.span.start)) =
      fun token => decide (token.span.start < cursor.offset) := by
    funext token
    rw [← decide_not]
    exact decide_eq_decide.mpr Nat.not_le
  rw [List.find?_eq_head?_dropWhile_not, late, dropWhile_tokens_of_no_text within noText,
    Cursor.head?_tokens]

theorem mem_nodeKinds (noText : cursor.rest.takeWhile isTextChar = [])
    (more : cursor.token.kind ≠ .endOfFile) : cursor.token.kind ∈ nodeKinds := by
  have kinds := Cursor.kind_of_no_text noText
  simp only [List.mem_cons, List.not_mem_nil, or_false, more, false_or] at kinds
  simp only [nodeKinds, List.mem_cons, List.not_mem_nil, or_false]
  tauto

theorem exists_of_leads (within : draft.cursor.In source) (leads : draft.session.Leads source next) :
    ∃ draft', next = Draft.session draft' ∧ draft.cursor.Reaches draft'.cursor := by
  rw [Session.Leads, Draft.step_session within, Option.some.injEq] at leads
  obtain ⟨draft', stepped, rfl⟩ := Option.map_eq_some_iff.mp leads
  exact ⟨draft', rfl, Draft.step_reaches stepped⟩

/-- Steps lead from one place of the source to a later one. -/
theorem exists_of_steps (within : draft.cursor.In source)
    (steps : Relation.ReflTransGen (Session.Leads source) draft.session next) :
    ∃ draft', next = Draft.session draft' ∧ draft.cursor.Reaches draft'.cursor := by
  induction steps with
  | refl => exact ⟨draft, rfl, .refl _⟩
  | tail _ leads ih =>
    obtain ⟨draft', rfl, reach⟩ := ih
    obtain ⟨last, rfl, reach'⟩ := exists_of_leads (within.trans reach) leads
    exact ⟨last, rfl, reach.trans reach'⟩

/-- The tokens of a session along the run are those that follow its place. -/
theorem exists_of_reached (reached : session.Reached source) :
    ∃ draft : Draft, session = draft.session ∧ draft.cursor.In source := by
  have within : (Draft.start source).cursor.In source := .refl _
  exact exists_of_steps within reached

theorem reached_run (draft : Draft) (within : draft.cursor.In source) :
    Relation.ReflTransGen (Session.Leads source) draft.session draft.run.session := by
  fun_induction Draft.run draft with
  | case1 draft => exact .refl
  | case2 draft next stepped ih =>
    have leads : draft.session.Leads source next.session := by
      rw [Session.Leads, Draft.step_session within, stepped, Option.map_some]
    exact .head leads (ih (within.trans (Draft.step_reaches stepped)))

/-- **Tokens and offset stay in step, and every node takes some of the source.** Wherever a node can
be read, the next token is the first one at the offset or behind it, stands right at the offset, and
is of a kind that a node starts with. Reading the node succeeds and moves the offset on, and no step
moves it back. The run from the start of the source comes to an end, and all of the source has been
read then. -/
theorem sessions_in_step (source : Text) :
    (∀ session : Session, session.Reached source → session.AtNode source →
      (tokens source).find? (fun token => session.feed.offset ≤ token.span.start) =
          some (session.feed.token source) ∧
        (session.feed.token source).span.start = session.feed.offset ∧
          (session.feed.token source).kind ∈ nodeKinds ∧
            ∃ next : Session, session.readNode source = some next ∧
              session.feed.offset < next.feed.offset ∧
                ∀ later : Session, Relation.ReflTransGen (Session.Leads source) next later →
                  next.feed.offset ≤ later.feed.offset) ∧
      ∃ last : Session, (Session.start source).run source = some last ∧ last.Reached source ∧
        last.step source = some none ∧ last.feed.offset = source.bytes := by
  constructor
  · intro session reached atNode
    obtain ⟨draft, rfl, within⟩ := exists_of_reached reached
    obtain ⟨⟨rest, isRest, noText⟩, more⟩ := atNode
    rw [Draft.feed_session, Cursor.token_feed] at more ⊢
    rw [Draft.feed_session, Cursor.offset_feed, within.cutFrom, Option.some.injEq] at isRest
    obtain rfl := isRest
    have reach := (Draft.readNode_follows draft).reach
    refine ⟨find?_tokens_of_no_text within noText, Cursor.token_start_of_no_text noText,
      mem_nodeKinds noText more, _, Draft.readNode_session within more,
      Cursor.offset_lt_of_lt reach (Draft.readNode_lt more), ?_⟩
    intro later steps
    obtain ⟨draft', rfl, reach'⟩ := exists_of_steps (within.trans reach) steps
    exact reach'.offset_le
  · have within : (Draft.start source).cursor.In source := .refl _
    have ended : (Draft.start source).run.step = none := Draft.step_run _
    obtain ⟨draft', same, reach⟩ := exists_of_steps within (reached_run _ within)
    obtain rfl : (Draft.start source).run = draft' := congrArg Session.draft same
    refine ⟨_, Draft.run_session within, reached_run _ within, ?_,
      Draft.offset_run.trans (Nat.zero_add _)⟩
    rw [Draft.step_session (within.trans reach), ended, Option.map_none]

end ClassHoist.Markup
