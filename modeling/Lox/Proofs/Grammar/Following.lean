import Lox.Proofs.Grammar.Indexed
import Lox.Proofs.Grammar.Reader

/-!
# Following a cursor with a head

A `Tape` is a list of tokens with an end of file in it, taken apart at the first one. A head
*stands* where a cursor is (`Tape.Stands`) if the tokens from its index on, up to the first end of
file, are those ahead of the cursor; nothing that the head has looked at lies beyond that end of
file, and no round of a loop has stayed in its place and in the loop.

`Follows tape p q c limit` says that a reader `q` by index, started with its head where the cursor
`c` is, does what `p` does at `c`: it looks at nothing outside its tokens, it ends as `p` does, and
its head stands where the cursor is in the end. After a success fewer than `limit` tokens are left;
this is what shows that the rounds of loops move on. Where `p` runs out of fuel nothing is said, so
that no rule speaks of fuel.
-/

namespace Lox

/-! ### Tapes -/

/-- Tokens with an end of file among them, taken apart at the first one. -/
structure Tape where
  body : List Token
  eof : Token
  after : List Token
  notEof : ∀ t ∈ body, t.isEof = false
  isEof : eof.isEof = true

namespace Tape

variable (tape : Tape)

def tokens : List Token := tape.body ++ tape.eof :: tape.after

/-- Every list with an end of file in it is the list of a tape. -/
theorem exists_tokens {ts : List Token} (h : ∃ t ∈ ts, t.isEof = true) :
    ∃ tape : Tape, tape.tokens = ts := by
  induction ts with
  | nil => simp at h
  | cons t rest ih =>
    by_cases ht : t.isEof = true
    · exact ⟨⟨[], t, rest, by simp, ht⟩, rfl⟩
    · obtain ⟨u, hu, heof⟩ := h
      have hrest : u ∈ rest := (List.mem_cons.mp hu).resolve_left fun hut => ht (hut ▸ heof)
      obtain ⟨⟨body, eof, after, hbody, hend⟩, rfl⟩ := ih ⟨u, hrest, heof⟩
      refine ⟨⟨t :: body, eof, after, ?_, hend⟩, rfl⟩
      exact List.forall_mem_cons.mpr ⟨Bool.eq_false_iff.mpr ht, hbody⟩

theorem length_body_lt : tape.body.length < tape.tokens.length := by
  simp [tokens]

theorem exists_before (count : Nat) :
    ∃ t, tape.tokens[tape.body.length - count - 1]? = some t := by
  have hlt := tape.length_body_lt
  exact ⟨_, List.getElem?_eq_getElem (by omega)⟩

theorem findIdx_isEof : tape.tokens.findIdx Token.isEof = tape.body.length := by
  have hbody : tape.body.findIdx Token.isEof = tape.body.length :=
    List.findIdx_eq_length.mpr tape.notEof
  rw [tokens, List.findIdx_append, hbody, if_neg (lt_irrefl _), List.findIdx_cons, tape.isEof]
  simp

theorem ofTokens_eq (made : Nat) :
    Cursor.ofTokens tape.tokens made = ⟨tape.body, tape.eof, made, []⟩ := by
  have hbody : ∀ t ∈ tape.body, (!t.isEof) = true := fun t ht => by simp [tape.notEof t ht]
  have hnone : tape.body.find? Token.isEof = none :=
    List.find?_eq_none.mpr fun t ht => by simp [tape.notEof t ht]
  simp [Cursor.ofTokens, tokens, List.takeWhile_append_of_pos hbody, hnone, tape.isEof]

end Tape

/-! ### Heads and cursors -/

/-- The head is where the cursor is. All it has looked at lies before the end of the tape, and every
round has gone on or left its loop. -/
structure Tape.Stands (tape : Tape) (h : Head) (c : Cursor) : Prop where
  ahead : c.ahead = tape.body.drop h.current
  current : h.current ≤ tape.body.length
  eof : c.eof = tape.eof
  made : c.made = h.made
  complaints : c.complaints = h.complaints
  reads : ∀ i ∈ h.reads, i ≤ tape.body.length
  rounds : ∀ r ∈ h.rounds, r.left = true ∨ r.start < r.stop

section Stands

variable {tape : Tape} {h : Head} {c : Cursor}

theorem Tape.stands_start (tape : Tape) (made : Nat) :
    tape.Stands { made := made } (Cursor.ofTokens tape.tokens made) := by
  rw [tape.ofTokens_eq]
  exact ⟨rfl, Nat.zero_le _, rfl, rfl, rfl, by simp, by simp⟩

namespace Tape.Stands

theorem length (hs : tape.Stands h c) : h.current + c.ahead.length = tape.body.length := by
  have hle := hs.current
  rw [hs.ahead, List.length_drop]
  omega

theorem atEnd (hs : tape.Stands h c) : c.peek.isEof = c.ahead.isEmpty := by
  rw [Cursor.peek]
  cases hahead : c.ahead with
  | nil => simp [hs.eof, tape.isEof]
  | cons t rest =>
    have hmem : t ∈ tape.body :=
      List.mem_of_mem_drop (hs.ahead ▸ hahead ▸ List.mem_cons_self)
    simp [tape.notEof t hmem]

theorem getElem?_current (hs : tape.Stands h c) : tape.tokens[h.current]? = some c.peek := by
  have hdrop : tape.tokens.drop h.current = c.ahead ++ tape.eof :: tape.after := by
    rw [hs.ahead, Tape.tokens, List.drop_append_of_le_length hs.current]
  rw [← List.head?_drop, hdrop, Cursor.peek]
  cases hahead : c.ahead with
  | nil => simp [hs.eof]
  | cons t rest => rfl

theorem getElem?_passed (hs : tape.Stands h c) {t : Token} {rest : List Token}
    (hahead : c.ahead = t :: rest) :
    tape.tokens[tape.body.length - rest.length - 1]? = some t := by
  have hget := hs.getElem?_current
  have hlength := hs.length
  rw [Cursor.peek, hahead, List.headD_cons] at hget
  rw [hahead, List.length_cons] at hlength
  rw [← hget]
  congr 1
  omega

theorem read (hs : tape.Stands h c) {i : Nat} (hi : i ≤ tape.body.length) :
    tape.Stands { h with reads := i :: h.reads } c :=
  { hs with reads := List.forall_mem_cons.mpr ⟨hi, hs.reads⟩ }

theorem step (hs : tape.Stands h c) {t : Token} {rest : List Token} (hahead : c.ahead = t :: rest) :
    tape.Stands { h with current := h.current + 1 } { c with ahead := rest } := by
  have hlength := hs.length
  rw [hahead, List.length_cons] at hlength
  refine { hs with ahead := ?_, current := ?_ }
  · show rest = tape.body.drop (h.current + 1)
    rw [← List.tail_drop, ← hs.ahead, hahead]
    rfl
  · show h.current + 1 ≤ tape.body.length
    omega

theorem freshId (hs : tape.Stands h c) :
    tape.Stands { h with made := h.made + 1 } { c with made := c.made + 1 } :=
  { hs with made := by rw [hs.made] }

theorem complain (hs : tape.Stands h c) (x : Complaint) :
    tape.Stands { h with complaints := h.complaints ++ [x] } (c.complain x) :=
  { hs with complaints := by rw [Cursor.complain, hs.complaints] }

theorem round (hs : tape.Stands h c) {r : Round} (hr : r.left = true ∨ r.start < r.stop) :
    tape.Stands { h with rounds := r :: h.rounds } c :=
  { hs with rounds := List.forall_mem_cons.mpr ⟨hr, hs.rounds⟩ }

theorem again (hs : tape.Stands h c) {start : Nat}
    (hprogress : start + c.ahead.length < tape.body.length) :
    tape.Stands { h with rounds := ⟨start, h.current, false⟩ :: h.rounds } c := by
  have hlength := hs.length
  exact hs.round (.inr (by show start < h.current; omega))

end Tape.Stands

end Stands

namespace Indexed

variable {σ α β : Type} {tape : Tape} {c d : Cursor} {h : Head}

/-! ### Steps by index -/

/-- The reader ends with a value, with its head where the cursor `d` is. -/
def Lands (tape : Tape) (q : Indexed α) (h : Head) (a : α) (d : Cursor) : Prop :=
  ∃ h', q tape.tokens h = .ok a h' ∧ tape.Stands h' d

theorem lands_pure (hs : tape.Stands h c) (a : α) : Lands tape (pure a) h a c := ⟨h, rfl, hs⟩

theorem Lands.bind {q : Indexed α} {g : α → Indexed β} {a : α} {b : β}
    (hq : Lands tape q h a c) (hg : ∀ h', tape.Stands h' c → Lands tape (g a) h' b d) :
    Lands tape (q >>= g) h b d := by
  obtain ⟨h₁, heq, hs⟩ := hq
  obtain ⟨h₂, heq₂, hs₂⟩ := hg h₁ hs
  refine ⟨h₂, ?_, hs₂⟩
  show Indexed.bind q g tape.tokens h = _
  rw [Indexed.bind, heq]
  exact heq₂

theorem lands_tokenAt (hs : tape.Stands h c) {i : Nat} {t : Token}
    (hi : i ≤ tape.body.length) (ht : tape.tokens[i]? = some t) : Lands tape (tokenAt i) h t c :=
  ⟨_, by rw [tokenAt, ht], hs.read hi⟩

theorem lands_peek (hs : tape.Stands h c) : Lands tape peek h c.peek c :=
  lands_tokenAt hs hs.current hs.getElem?_current

/-- The token before those ahead of the cursor. At the start it is the first one of the tape. -/
theorem lands_previous (hs : tape.Stands h c) {t : Token}
    (ht : tape.tokens[tape.body.length - c.ahead.length - 1]? = some t) :
    Lands tape previous h t c := by
  have hlength := hs.length
  refine lands_tokenAt hs (by omega) ?_
  rw [← ht]
  congr 2
  omega

theorem lands_atEnd (hs : tape.Stands h c) : Lands tape atEnd h c.ahead.isEmpty c := by
  refine (lands_peek hs).bind fun h' hs' => ?_
  rw [hs'.atEnd]
  exact lands_pure hs' _

section Ahead

variable {t : Token} {rest : List Token}

theorem lands_peek_cons (hs : tape.Stands h c) (hahead : c.ahead = t :: rest) :
    Lands tape peek h t c := by
  have hpeek := lands_peek hs
  rwa [Cursor.peek, hahead, List.headD_cons] at hpeek

theorem lands_atEnd_nil (hs : tape.Stands h c) (hahead : c.ahead = []) :
    Lands tape atEnd h true c := by
  have hend := lands_atEnd hs
  rwa [hahead] at hend

theorem lands_atEnd_cons (hs : tape.Stands h c) (hahead : c.ahead = t :: rest) :
    Lands tape atEnd h false c := by
  have hend := lands_atEnd hs
  rwa [hahead] at hend

end Ahead

theorem lands_check (hs : tape.Stands h c) (k : TokenKind) :
    Lands tape (check k) h (c.check k) c := by
  rw [Cursor.check]
  cases hahead : c.ahead with
  | nil => exact (lands_atEnd_nil hs hahead).bind fun h₁ hs₁ => lands_pure hs₁ false
  | cons t rest =>
    refine (lands_atEnd_cons hs hahead).bind fun h₁ hs₁ => ?_
    exact (lands_peek_cons hs₁ hahead).bind fun h₂ hs₂ => lands_pure hs₂ _

theorem lands_atClosing (hs : tape.Stands h c) (inBraces : Bool) :
    Lands tape (atClosing inBraces) h
      (c.ahead.isEmpty || (inBraces && c.check (.symbol .rightBrace))) c := by
  cases inBraces with
  | false =>
    rw [Bool.false_and, Bool.or_false]
    exact lands_atEnd hs
  | true =>
    rw [Bool.true_and, Bool.or_comm]
    refine (lands_check hs _).bind fun h' hs' => ?_
    cases c.check (.symbol .rightBrace) with
    | true => exact lands_pure hs' true
    | false => exact lands_atEnd hs'

theorem lands_advance (hs : tape.Stands h c) {t : Token} {rest : List Token}
    (hahead : c.ahead = t :: rest) : Lands tape advance h t { c with ahead := rest } := by
  refine (lands_atEnd_cons hs hahead).bind fun h' hs' => ?_
  exact lands_previous (hs'.step hahead) (hs'.getElem?_passed hahead)

theorem lands_advance_nil (hs : tape.Stands h c) (hahead : c.ahead = []) {t : Token}
    (ht : tape.tokens[tape.body.length - c.ahead.length - 1]? = some t) :
    Lands tape advance h t c :=
  (lands_atEnd_nil hs hahead).bind fun _ hs' => lands_previous hs' ht

theorem lands_acceptIf_none (hs : tape.Stands h c) {test : TokenKind → Bool}
    (htest : ∀ t rest, c.ahead = t :: rest → test t.kind = false) :
    Lands tape (acceptIf test) h none c := by
  cases hahead : c.ahead with
  | nil => exact (lands_atEnd_nil hs hahead).bind fun h₁ hs₁ => lands_pure hs₁ none
  | cons t rest =>
    refine (lands_atEnd_cons hs hahead).bind fun h₁ hs₁ => ?_
    refine (lands_peek_cons hs₁ hahead).bind fun h₂ hs₂ => ?_
    rw [htest t rest hahead]
    exact lands_pure hs₂ none

theorem lands_acceptIf_some (hs : tape.Stands h c) {test : TokenKind → Bool} {t : Token}
    {rest : List Token} (hahead : c.ahead = t :: rest) (htest : test t.kind = true) :
    Lands tape (acceptIf test) h (some t) { c with ahead := rest } := by
  refine (lands_atEnd_cons hs hahead).bind fun h₁ hs₁ => ?_
  refine (lands_peek_cons hs₁ hahead).bind fun h₂ hs₂ => ?_
  rw [htest]
  exact (lands_advance hs₂ hahead).bind fun h₃ hs₃ => lands_pure hs₃ (some t)

theorem lands_checkArity (hs : tape.Stands h c) (count : Nat) (x : ParseError) :
    Lands tape (checkArity count x) h ()
      (if maxArity ≤ count then c.complain ⟨c.peek, x⟩ else c) := by
  rw [checkArity]
  split_ifs
  · exact (lands_peek hs).bind fun h' hs' => ⟨_, rfl, hs'.complain _⟩
  · exact lands_pure hs ()

/-! ### Skipping -/

theorem lands_leave (hs : tape.Stands h c) (start : Nat) (next : σ → Indexed α) (a : α) :
    Lands tape (conclude start next (.leave a)) h a c :=
  ⟨_, rfl, hs.round (.inl rfl)⟩

theorem lands_again (hs : tape.Stands h c) {start : Nat} {next : σ → Indexed α} {s : σ} {a : α}
    (hprogress : start + c.ahead.length < tape.body.length)
    (hnext : ∀ h', tape.Stands h' c → Lands tape (next s) h' a d) :
    Lands tape (conclude start next (.again s)) h a d :=
  hnext _ (hs.again hprogress)

theorem lands_skipOne_nil (hs : tape.Stands h c) (hahead : c.ahead = []) :
    Lands tape skipOne h (.leave ()) c :=
  (lands_atEnd_nil hs hahead).bind fun _ hs' => lands_pure hs' _

theorem lands_skipOne_cons (hs : tape.Stands h c) {last t : Token} {rest : List Token}
    (hlast : tape.tokens[tape.body.length - c.ahead.length - 1]? = some last)
    (hahead : c.ahead = t :: rest) :
    if last.kind == .symbol .semicolon || Cursor.startsStatement t then
      Lands tape skipOne h (.leave ()) c
    else Lands tape skipOne h (.again ()) { c with ahead := rest } := by
  cases hsemicolon : last.kind == .symbol .semicolon with
  | true =>
    refine (lands_atEnd_cons hs hahead).bind fun h₁ hs₁ => ?_
    refine (lands_previous hs₁ hlast).bind fun h₂ hs₂ => ?_
    rw [hsemicolon]
    exact lands_pure hs₂ _
  | false =>
    rw [Bool.false_or]
    split_ifs with hstarts
    all_goals
      refine (lands_atEnd_cons hs hahead).bind fun h₁ hs₁ => ?_
      refine (lands_previous hs₁ hlast).bind fun h₂ hs₂ => ?_
      rw [hsemicolon]
      refine (lands_peek_cons hs₂ hahead).bind fun h₃ hs₃ => ?_
    · rw [hstarts]
      exact lands_pure hs₃ _
    · rw [Bool.eq_false_iff.mpr hstarts]
      exact (lands_advance hs₃ hahead).bind fun h₄ hs₄ => lands_pure hs₄ _

/-- Every round of the loop but the last one skips a token. -/
theorem lands_skip {n : Nat} {last : Token} (hs : tape.Stands h c)
    (hlast : tape.tokens[tape.body.length - c.ahead.length - 1]? = some last)
    (hn : c.ahead.length < n) :
    Lands tape (skip n) h () { c with ahead := Cursor.skipFrom last c.ahead } := by
  induction n generalizing h c last with
  | zero => omega
  | succ n ih =>
    show Lands tape (skipOne >>= conclude h.current fun _ => skip n) h () _
    have hstart := hs.length
    cases hahead : c.ahead with
    | nil =>
      rw [Cursor.skipFrom, ← hahead]
      exact (lands_skipOne_nil hs hahead).bind fun h' hs' => lands_leave hs' _ _ ()
    | cons t rest =>
      have hround := lands_skipOne_cons hs hlast hahead
      rw [Cursor.skipFrom]
      split_ifs at hround ⊢
      · rw [← hahead]
        exact hround.bind fun h' hs' => lands_leave hs' _ _ ()
      · rw [hahead, List.length_cons] at hstart hn
        refine hround.bind fun h' hs' => lands_again hs' ?_ fun h'' hs'' => ?_
        · show h.current + rest.length < tape.body.length
          omega
        · exact ih hs'' (hs.getElem?_passed hahead) (by show rest.length < n; omega)

theorem lands_synchronize (hs : tape.Stands h c) : Lands tape synchronize h () c.synchronize := by
  have hbody := tape.length_body_lt
  have hlength := hs.length
  rw [Cursor.synchronize]
  cases hahead : c.ahead with
  | nil =>
    obtain ⟨t, ht⟩ := tape.exists_before c.ahead.length
    refine (lands_advance_nil hs hahead ht).bind fun h' hs' => ?_
    have hskip := lands_skip (n := tape.tokens.length + 1) hs' ht (by omega)
    rwa [hahead, Cursor.skipFrom, ← hahead] at hskip
  | cons t rest =>
    refine (lands_advance hs hahead).bind fun h' hs' => ?_
    refine lands_skip hs' (hs.getElem?_passed hahead) ?_
    rw [hahead, List.length_cons] at hlength
    show rest.length < tape.tokens.length + 1
    omega

/-! ### Readers that follow readers -/

/-- Two readers, one with a cursor and one with a head, have ended alike and at the same place. At
`most` so many tokens are left, and fewer than `limit` after a success. -/
inductive Agree (tape : Tape) (most limit : Nat) : Lox.Reply α → Reply α → Prop
  | ok {a : α} {d : Cursor} {h : Head} (hs : tape.Stands h d) (hmost : d.ahead.length ≤ most)
      (hlimit : d.ahead.length < limit) : Agree tape most limit (.ok a d) (.ok a h)
  | fail {x : Complaint} {d : Cursor} {h : Head} (hs : tape.Stands h d)
      (hmost : d.ahead.length ≤ most) : Agree tape most limit (.fail x d) (.fail x h)
  | outOfFuel {r : Reply α} : Agree tape most limit .outOfFuel r

theorem Agree.mono {most most' limit limit' : Nat} {r : Lox.Reply α} {r' : Reply α}
    (h : Agree tape most limit r r') (hmost : most ≤ most') (hlimit : limit ≤ limit') :
    Agree tape most' limit' r r' := by
  cases h with
  | ok hs hm hl => exact .ok hs (hm.trans hmost) (Nat.lt_of_lt_of_le hl hlimit)
  | fail hs hm => exact .fail hs (hm.trans hmost)
  | outOfFuel => exact .outOfFuel

theorem Agree.of_lands {most limit : Nat} {q : Indexed α} {a : α} (hq : Lands tape q h a d)
    (hmost : d.ahead.length ≤ most) (hlimit : d.ahead.length < limit) :
    Agree tape most limit (.ok a d) (q tape.tokens h) := by
  obtain ⟨h', heq, hs⟩ := hq
  rw [heq]
  exact .ok hs hmost hlimit

theorem Agree.lands {most limit : Nat} {q : Indexed α} {a : α}
    (hend : Agree tape most limit (.ok a d) (q tape.tokens h)) : Lands tape q h a d := by
  generalize hq : q tape.tokens h = r at hend
  cases hend with
  | ok hs => exact ⟨_, hq, hs⟩

theorem Agree.fails {most limit : Nat} {q : Indexed α} {x : Complaint}
    (hend : Agree tape most limit (.fail x d) (q tape.tokens h)) :
    ∃ h', q tape.tokens h = .fail x h' ∧ tape.Stands h' d := by
  generalize q tape.tokens h = r at hend
  cases hend with
  | fail hs => exact ⟨_, rfl, hs⟩

/-- With its head where the cursor `c` is, `q` does what `p` does there. -/
def Follows (tape : Tape) (p : Parse α) (q : Indexed α) (c : Cursor) (limit : Nat) : Prop :=
  ∀ h, tape.Stands h c → Agree tape c.ahead.length limit (p c) (q tape.tokens h)

section Follows

variable {p : Parse α} {q : Indexed α} {f : α → Parse β} {g : α → Indexed β} {limit limit' : Nat}

theorem follows_outOfFuel : Follows tape Parse.outOfFuel q c limit := fun _ _ => .outOfFuel

theorem follows_pure (a : α) (hlimit : c.ahead.length < limit) :
    Follows tape (pure a) (pure a) c limit :=
  fun _ hs => .ok hs (le_refl _) hlimit

theorem follows_failWith (what : Expected) :
    Follows tape (Parse.failWith what : Parse α) (failWith what) c limit := by
  intro h hs
  obtain ⟨h', heq, hs'⟩ := lands_peek hs
  have hfail : (failWith what : Indexed α) tape.tokens h =
      .fail ⟨c.peek, .expected what⟩ h' := by
    show Indexed.bind peek (fun t _ h => .fail ⟨t, .expected what⟩ h) tape.tokens h = _
    simp only [Indexed.bind, heq]
  rw [hfail]
  exact .fail hs' (le_refl _)

theorem Follows.mono (hp : Follows tape p q c limit) (hlimit : limit ≤ limit') :
    Follows tape p q c limit' :=
  fun h hs => (hp h hs).mono (le_refl _) hlimit

theorem Follows.bind (hp : Follows tape p q c limit)
    (hf : ∀ a d, d.ahead.length < limit → Follows tape (f a) (g a) d limit') :
    Follows tape (p >>= f) (q >>= g) c limit' := by
  intro h hs
  have hend := hp h hs
  show Agree tape _ _ (Parse.bind p f c) (Indexed.bind q g tape.tokens h)
  unfold Parse.bind Indexed.bind
  generalize p c = r, q tape.tokens h = r' at hend
  cases hend with
  | ok hs' hmost hlimit => exact (hf _ _ hlimit _ hs').mono hmost (le_refl _)
  | fail hs' hmost => exact .fail hs' hmost
  | outOfFuel => exact .outOfFuel

theorem follows_bind_of_lands {a : α} (hp : p c = .ok a d)
    (hq : ∀ h, tape.Stands h c → Lands tape q h a d) (hmost : d.ahead.length ≤ c.ahead.length)
    (hf : Follows tape (f a) (g a) d limit) : Follows tape (p >>= f) (q >>= g) c limit := by
  intro h hs
  obtain ⟨h', heq, hs'⟩ := hq h hs
  show Agree tape _ _ (Parse.bind p f c) (Indexed.bind q g tape.tokens h)
  rw [Parse.bind, Indexed.bind, hp, heq]
  exact (hf h' hs').mono hmost (le_refl _)

theorem Follows.assoc {γ : Type} {p : Parse γ} {k : β → Indexed γ}
    (h : Follows tape p (q >>= fun a => g a >>= k) c limit) :
    Follows tape p ((q >>= g) >>= k) c limit := by
  have hassoc : (q >>= g) >>= k = q >>= fun a => g a >>= k := by
    funext tokens h
    show Indexed.bind (Indexed.bind q g) k tokens h =
      Indexed.bind q (fun a => Indexed.bind (g a) k) tokens h
    unfold Indexed.bind
    cases q tokens h <;> rfl
  rwa [hassoc]

/-! ### Steps -/

section Steps

theorem follows_freshId {f : NodeId → Parse β} {g : NodeId → Indexed β}
    (hf : ∀ id d, d.ahead.length = c.ahead.length → Follows tape (f id) (g id) d limit) :
    Follows tape (Parse.freshId >>= f) (freshId >>= g) c limit := by
  refine follows_bind_of_lands rfl (fun h hs => ?_) (le_refl _)
    (hf (.ofNat c.made) { c with made := c.made + 1 } rfl)
  rw [hs.made]
  exact ⟨_, rfl, hs.made ▸ hs.freshId⟩

theorem follows_check {k : TokenKind} {f : Bool → Parse β} {g : Bool → Indexed β}
    (hf : Follows tape (f (c.check k)) (g (c.check k)) c limit) :
    Follows tape (Parse.check k >>= f) (check k >>= g) c limit :=
  follows_bind_of_lands rfl (fun _ hs => lands_check hs k) (le_refl _) hf

theorem follows_atEnd {f : Bool → Parse β} {g : Bool → Indexed β}
    (hf : Follows tape (f c.ahead.isEmpty) (g c.ahead.isEmpty) c limit) :
    Follows tape (Parse.atEnd >>= f) (atEnd >>= g) c limit :=
  follows_bind_of_lands rfl (fun _ hs => lands_atEnd hs) (le_refl _) hf

theorem follows_atClosing {inBraces : Bool} {f : Bool → Parse β} {g : Bool → Indexed β}
    (hclosed : Follows tape (f true) (g true) c limit)
    (hopen : c.ahead ≠ [] → Follows tape (f false) (g false) c limit) :
    Follows tape (Parse.atClosing inBraces >>= f) (atClosing inBraces >>= g) c limit := by
  refine follows_bind_of_lands rfl (fun _ hs => lands_atClosing hs inBraces) (le_refl _) ?_
  cases hclosing : c.ahead.isEmpty || (inBraces && c.check (.symbol .rightBrace)) with
  | true => exact hclosed
  | false =>
    refine hopen fun hnil => ?_
    simp [hnil] at hclosing

theorem follows_complain {t : Token} {x : ParseError} {f : Unit → Parse β} {g : Unit → Indexed β}
    (hf : ∀ d, d.ahead.length = c.ahead.length → Follows tape (f ()) (g ()) d limit) :
    Follows tape (Parse.complain t x >>= f) (complain ⟨t, x⟩ >>= g) c limit :=
  follows_bind_of_lands rfl (fun _ hs => ⟨_, rfl, hs.complain _⟩) (le_refl _)
    (hf (c.complain ⟨t, x⟩) rfl)

theorem follows_checkArity {count : Nat} {x : ParseError} {f : Unit → Parse β}
    {g : Unit → Indexed β}
    (hf : ∀ d, d.ahead.length = c.ahead.length → Follows tape (f ()) (g ()) d limit) :
    Follows tape (Parse.checkArity count x >>= f) (checkArity count x >>= g) c limit := by
  have hlength : (if maxArity ≤ count then c.complain ⟨c.peek, x⟩ else c).ahead.length =
      c.ahead.length := by
    split_ifs <;> rfl
  refine follows_bind_of_lands ?_ (fun _ hs => lands_checkArity hs count x) hlength.le
    (hf _ hlength)
  rw [Parse.checkArity]
  split_ifs <;> rfl

theorem follows_acceptIf {test : TokenKind → Bool} {f : Option Token → Parse β}
    {g : Option Token → Indexed β} (hnone : Follows tape (f none) (g none) c limit)
    (hsome : ∀ t d, d.ahead.length < c.ahead.length →
      Follows tape (f (some t)) (g (some t)) d limit) :
    Follows tape (Parse.acceptIf test >>= f) (acceptIf test >>= g) c limit := by
  by_cases htest : ∃ t rest, c.ahead = t :: rest ∧ test t.kind = true
  · obtain ⟨t, rest, hahead, hpass⟩ := htest
    have hlt : rest.length < c.ahead.length := by simp [hahead]
    refine follows_bind_of_lands ?_ (fun _ hs => lands_acceptIf_some hs hahead hpass) hlt.le
      (hsome t _ hlt)
    rw [Parse.acceptIf, hahead]
    exact if_pos hpass
  · have hrefused : ∀ t rest, c.ahead = t :: rest → test t.kind = false := fun t rest hahead =>
      Bool.eq_false_iff.mpr fun hpass => htest ⟨t, rest, hahead, hpass⟩
    refine follows_bind_of_lands ?_ (fun _ hs => lands_acceptIf_none hs hrefused) (le_refl _) hnone
    rw [Parse.acceptIf]
    cases hahead : c.ahead with
    | nil => rfl
    | cons t rest => simp [hrefused t rest hahead]

theorem follows_accept {k : TokenKind} {f : Option Token → Parse β} {g : Option Token → Indexed β}
    (hnone : Follows tape (f none) (g none) c limit)
    (hsome : ∀ t d, d.ahead.length < c.ahead.length →
      Follows tape (f (some t)) (g (some t)) d limit) :
    Follows tape (Parse.accept k >>= f) (accept k >>= g) c limit :=
  follows_acceptIf hnone hsome

theorem follows_expect {k : TokenKind} {what : Expected} {f : Token → Parse β}
    {g : Token → Indexed β}
    (hf : ∀ t d, d.ahead.length < c.ahead.length → Follows tape (f t) (g t) d limit) :
    Follows tape (Parse.expect k what >>= f) (expect k what >>= g) c limit :=
  Follows.bind (follows_accept (follows_failWith what) fun t _ hlt => follows_pure t hlt) hf

end Steps

/-! ### Loops -/

section Loops

variable {body : Indexed (Turn σ α)} {next : σ → Indexed α}

/-- A loop starts a round somewhere, which is recorded at the end of the round. -/
theorem follows_round
    (hbody : ∀ start, start + c.ahead.length = tape.body.length →
      Follows tape p (body >>= conclude start next) c limit) :
    Follows tape p (round body next) c limit :=
  fun h hs => hbody h.current hs.length h hs

theorem follows_leave {start : Nat} (a : α) (hlimit : c.ahead.length < limit) :
    Follows tape (pure a) (pure (.leave a) >>= conclude start next) c limit :=
  fun _ hs => .of_lands (lands_leave hs start next a) (le_refl _) hlimit

theorem follows_again {start : Nat} {s : σ}
    (hprogress : start + c.ahead.length < tape.body.length)
    (hnext : Follows tape p (next s) c limit) :
    Follows tape p (pure (.again s) >>= conclude start next) c limit :=
  fun _ hs => hnext _ (hs.again hprogress)

end Loops

/-! ### Recovery -/

theorem Lands.attempt_fail {afterwards : Indexed Unit} {x : Complaint}
    {h' : Head} (hq : q tape.tokens h = .fail x h') (hs : tape.Stands h' c)
    (hafter : ∀ h, tape.Stands h (c.complain x) → Lands tape afterwards h () d) :
    Lands tape (attempt q afterwards) h none d := by
  have hrest : Lands tape (do complain x; afterwards; return none : Indexed (Option α)) h' none d :=
    Lands.bind ⟨_, rfl, hs.complain x⟩ fun h₁ hs₁ => (hafter h₁ hs₁).bind fun _ hs₂ =>
      lands_pure hs₂ none
  rw [Lands, attempt, hq]
  exact hrest

/-- After a failure, too, a token is gone if there was one. -/
theorem follows_recover (hahead : c.ahead ≠ []) (hp : Follows tape p q c c.ahead.length) :
    Follows tape (Parse.recover p) (recover q) c c.ahead.length := by
  intro h hs
  have hend := hp h hs
  unfold Parse.recover
  generalize hpc : p c = r, hqh : q tape.tokens h = r' at hend
  cases hend with
  | ok hs' hmost hlimit =>
    refine .of_lands ⟨_, ?_, hs'⟩ hmost hlimit
    rw [recover, attempt, hqh]
  | @fail x d h' hs' hmost =>
    have hlt := Cursor.length_recovered_lt x hahead hmost
    exact .of_lands (Lands.attempt_fail hqh hs' fun _ hs₁ => lands_synchronize hs₁) hlt.le hlt
  | outOfFuel => exact .outOfFuel

end Follows

end Indexed

end Lox
