import Mathlib.Data.List.Infix
import Mathlib.Tactic.Common
import Lox.Grammar.Statement

/-!
# What readers do to a cursor

A reader never goes back: the cursor it leaves is *onward* of the one it started from
(`Cursor.Onward`). Its tokens are a suffix of the earlier ones, node identities are only handed out,
and complaints are only added.

`Parse.Spec starved p c Q` says that `p`, started at `c`, goes onward whatever its end, and that `Q`
holds of what it returns. With `starved` true nothing is said of a reader that runs out of fuel;
with `starved` false it does not run out of fuel. The rules below take a reader apart along its
steps; statements about whole readers are derived from them and never unfold a step again.
-/

namespace Lox

/-- The cursor `d` can be reached from `c` by reading. -/
structure Cursor.Onward (c d : Cursor) : Prop where
  ahead : d.ahead <:+ c.ahead
  made : c.made ≤ d.made
  complaints : c.complaints <+: d.complaints
  eof : d.eof = c.eof

namespace Cursor

variable {c d e : Cursor}

theorem Onward.refl (c : Cursor) : c.Onward c :=
  ⟨List.suffix_refl _, le_refl _, List.prefix_refl _, rfl⟩

theorem Onward.trans (hcd : c.Onward d) (hde : d.Onward e) : c.Onward e :=
  ⟨hde.ahead.trans hcd.ahead, le_trans hcd.made hde.made,
    hcd.complaints.trans hde.complaints, hde.eof.trans hcd.eof⟩

theorem Onward.length_le (h : c.Onward d) : d.ahead.length ≤ c.ahead.length := h.ahead.length_le

theorem Onward.mem (h : c.Onward d) {t : Token} (ht : t ∈ d.ahead) : t ∈ c.ahead :=
  h.ahead.subset ht

theorem onward_ahead {rest : List Token} (h : rest <:+ c.ahead) :
    c.Onward { c with ahead := rest } :=
  ⟨h, le_refl _, List.prefix_refl _, rfl⟩

theorem onward_made {made : Nat} (h : c.made ≤ made) : c.Onward { c with made } :=
  ⟨List.suffix_refl _, h, List.prefix_refl _, rfl⟩

theorem onward_complain (c : Cursor) (x : Complaint) : c.Onward (c.complain x) :=
  ⟨List.suffix_refl _, le_refl _, List.prefix_append _ _, rfl⟩

theorem skipFrom_suffix (last : Token) (ts : List Token) : skipFrom last ts <:+ ts := by
  induction ts generalizing last with
  | nil => exact List.suffix_refl _
  | cons t rest ih =>
    rw [skipFrom]
    split_ifs
    · exact List.suffix_refl _
    · exact (ih t).trans (List.suffix_cons t rest)

theorem onward_synchronize (c : Cursor) : c.Onward c.synchronize := by
  unfold synchronize
  split
  · exact Onward.refl c
  · rename_i t rest heq
    refine onward_ahead ?_
    rw [heq]
    exact (skipFrom_suffix t rest).trans (List.suffix_cons t rest)

theorem length_synchronize_lt (h : c.ahead ≠ []) :
    c.synchronize.ahead.length < c.ahead.length := by
  unfold synchronize
  split
  · contradiction
  · rename_i t rest heq
    have hle := (skipFrom_suffix t rest).length_le
    simp only [heq, List.length_cons]
    omega

/-- After a mistake at `d` in what started at `c`, there is less ahead than there was at `c`. -/
theorem length_recovered_lt (x : Complaint) (hc : c.ahead ≠ [])
    (hle : d.ahead.length ≤ c.ahead.length) :
    (d.complain x).synchronize.ahead.length < c.ahead.length := by
  by_cases hd : d.ahead = []
  · have hnone : (d.complain x).synchronize.ahead = [] := by simp [synchronize, complain, hd]
    rw [hnone]
    exact List.length_pos_iff.mpr hc
  · have hskip : (d.complain x).synchronize.ahead.length < d.ahead.length :=
      length_synchronize_lt (c := d.complain x) hd
    exact lt_of_lt_of_le hskip hle

theorem check_iff {k : TokenKind} :
    c.check k = true ↔ ∃ t rest, c.ahead = t :: rest ∧ t.kind = k := by
  unfold check
  cases c.ahead with
  | nil => simp
  | cons t rest => simp

end Cursor

/-- How a reader ends. -/
def Reply.Ends {α : Type} (starved : Prop) (ok : α → Cursor → Prop) (fail : Cursor → Prop) :
    Reply α → Prop
  | .ok a next => ok a next
  | .fail _ next => fail next
  | .outOfFuel => starved

namespace Parse

variable {α β : Type} {starved : Prop} {c d : Cursor} {Q : α → Cursor → Prop}
  {Q' : β → Cursor → Prop}

/-- Started at `c`, the reader goes onward, and returns only what satisfies `Q`. -/
def Spec (starved : Prop) (p : Parse α) (c : Cursor) (Q : α → Cursor → Prop) : Prop :=
  (p c).Ends starved (fun a d => c.Onward d ∧ Q a d) (fun d => c.Onward d)

theorem Spec.of_ok {p : Parse α} {a : α} (h : Spec starved p c Q) (hp : p c = .ok a d) :
    c.Onward d ∧ Q a d := by
  rw [Spec, hp] at h
  exact h

theorem Spec.of_fail {p : Parse α} {x : Complaint} (h : Spec starved p c Q)
    (hp : p c = .fail x d) : c.Onward d := by
  rw [Spec, hp] at h
  exact h

theorem Spec.mono {p : Parse α} {R : α → Cursor → Prop} (h : Spec starved p c Q)
    (hQR : ∀ a d, c.Onward d → Q a d → R a d) : Spec starved p c R := by
  unfold Spec at h ⊢
  cases hp : p c with
  | ok a d =>
    rw [hp] at h
    exact ⟨h.1, hQR a d h.1 h.2⟩
  | fail x d =>
    rw [hp] at h
    exact h
  | outOfFuel =>
    rw [hp] at h
    exact h

/-! ### Sequencing -/

theorem spec_outOfFuel (h : starved) : Spec starved (outOfFuel : Parse α) c Q := h

theorem spec_pure {a : α} (h : Q a c) : Spec starved (pure a : Parse α) c Q :=
  ⟨Cursor.Onward.refl c, h⟩

theorem spec_failWith (what : Expected) : Spec starved (failWith what : Parse α) c Q :=
  Cursor.Onward.refl c

theorem Spec.bind {p : Parse α} {f : α → Parse β} (hp : Spec starved p c Q)
    (hf : ∀ a d, c.Onward d → Q a d → Spec starved (f a) d Q') :
    Spec starved (p >>= f) c Q' := by
  unfold Spec at hp ⊢
  change Reply.Ends _ _ _ (Parse.bind p f c)
  unfold Parse.bind
  cases hpc : p c with
  | ok a d =>
    rw [hpc] at hp
    have hrest := hf a d hp.1 hp.2
    unfold Spec at hrest
    show Reply.Ends _ _ _ (f a d)
    cases hfd : f a d with
    | ok b e =>
      rw [hfd] at hrest
      exact ⟨hp.1.trans hrest.1, hrest.2⟩
    | fail x e =>
      rw [hfd] at hrest
      exact hp.1.trans hrest
    | outOfFuel =>
      rw [hfd] at hrest
      exact hrest
  | fail x d =>
    rw [hpc] at hp
    exact hp
  | outOfFuel =>
    rw [hpc] at hp
    exact hp

theorem spec_bind_of_ok {p : Parse α} {f : α → Parse β} {a : α} (hp : p c = .ok a d)
    (hcd : c.Onward d) (hf : Spec starved (f a) d Q') : Spec starved (p >>= f) c Q' := by
  refine Spec.bind (Q := fun b e => b = a ∧ e = d) ?_ ?_
  · rw [Spec, hp]
    exact ⟨hcd, rfl, rfl⟩
  · rintro b e - ⟨rfl, rfl⟩
    exact hf

/-! ### Steps -/

theorem spec_freshId {f : NodeId → Parse β}
    (hf : Spec starved (f (.ofNat c.made)) { c with made := c.made + 1 } Q') :
    Spec starved (freshId >>= f) c Q' :=
  spec_bind_of_ok rfl (Cursor.onward_made (Nat.le_succ _)) hf

theorem spec_check {k : TokenKind} {f : Bool → Parse β}
    (hf : Spec starved (f (c.check k)) c Q') : Spec starved (check k >>= f) c Q' :=
  spec_bind_of_ok rfl (Cursor.Onward.refl c) hf

theorem spec_atEnd {f : Bool → Parse β} (hf : Spec starved (f c.ahead.isEmpty) c Q') :
    Spec starved (atEnd >>= f) c Q' :=
  spec_bind_of_ok rfl (Cursor.Onward.refl c) hf

theorem spec_atClosing {inBraces : Bool} {f : Bool → Parse β}
    (hf : Spec starved (f (c.ahead.isEmpty || (inBraces && c.check (.symbol .rightBrace)))) c Q') :
    Spec starved (atClosing inBraces >>= f) c Q' :=
  spec_bind_of_ok rfl (Cursor.Onward.refl c) hf

theorem spec_complain {t : Token} {x : ParseError} {f : Unit → Parse β}
    (hf : Spec starved (f ()) (c.complain ⟨t, x⟩) Q') :
    Spec starved (complain t x >>= f) c Q' :=
  spec_bind_of_ok rfl (Cursor.onward_complain c _) hf

theorem spec_checkArity {count : Nat} {x : ParseError} {f : Unit → Parse β}
    (hmany : maxArity ≤ count → Spec starved (f ()) (c.complain ⟨c.peek, x⟩) Q')
    (hfew : count < maxArity → Spec starved (f ()) c Q') :
    Spec starved (checkArity count x >>= f) c Q' := by
  by_cases hcount : maxArity ≤ count
  · refine spec_bind_of_ok ?_ (Cursor.onward_complain c ⟨c.peek, x⟩) (hmany hcount)
    rw [checkArity, if_pos hcount]
  · refine spec_bind_of_ok ?_ (Cursor.Onward.refl c) (hfew (by omega))
    rw [checkArity, if_neg hcount]

theorem spec_checkArity_any {count : Nat} {x : ParseError} {f : Unit → Parse β}
    (hf : ∀ complaints, Spec starved (f ()) { c with complaints := complaints } Q') :
    Spec starved (checkArity count x >>= f) c Q' :=
  spec_checkArity (fun _ => hf _) fun _ => hf c.complaints

theorem spec_acceptIf {test : TokenKind → Bool} {f : Option Token → Parse β}
    (hnone : (∀ t rest, c.ahead = t :: rest → test t.kind = false) → Spec starved (f none) c Q')
    (hsome : ∀ t rest, c.ahead = t :: rest → test t.kind = true →
      Spec starved (f (some t)) { c with ahead := rest } Q') :
    Spec starved (acceptIf test >>= f) c Q' := by
  cases hahead : c.ahead with
  | nil =>
    refine spec_bind_of_ok (a := none) ?_ (Cursor.Onward.refl c) (hnone (by simp [hahead]))
    rw [acceptIf, hahead]
  | cons t rest =>
    by_cases htest : test t.kind = true
    · refine spec_bind_of_ok (a := some t) ?_ (Cursor.onward_ahead ?_) (hsome t rest hahead htest)
      · rw [acceptIf, hahead]
        exact if_pos htest
      · rw [hahead]
        exact List.suffix_cons t rest
    · refine spec_bind_of_ok (a := none) ?_ (Cursor.Onward.refl c) (hnone ?_)
      · rw [acceptIf, hahead]
        exact if_neg htest
      · intro t' rest' heq
        rw [hahead, List.cons.injEq] at heq
        rw [← heq.1]
        exact Bool.eq_false_iff.mpr htest

theorem spec_accept {k : TokenKind} {f : Option Token → Parse β}
    (hnone : c.check k = false → Spec starved (f none) c Q')
    (hsome : ∀ t rest, c.ahead = t :: rest → t.kind = k →
      Spec starved (f (some t)) { c with ahead := rest } Q') :
    Spec starved (accept k >>= f) c Q' := by
  refine spec_acceptIf (fun h => hnone ?_) fun t rest heq ht =>
    hsome t rest heq (by simpa using ht)
  rw [Bool.eq_false_iff]
  intro hcheck
  obtain ⟨t, rest, heq, hkind⟩ := Cursor.check_iff.mp hcheck
  simpa [hkind] using h t rest heq

theorem spec_expect {k : TokenKind} {what : Expected} {f : Token → Parse β}
    (hf : ∀ t rest, c.ahead = t :: rest → t.kind = k →
      Spec starved (f t) { c with ahead := rest } Q') :
    Spec starved (expect k what >>= f) c Q' := by
  refine Spec.bind (Q := fun t d => ∃ rest, c.ahead = t :: rest ∧ t.kind = k ∧
    d = { c with ahead := rest }) ?_ ?_
  · refine spec_accept (fun _ => spec_failWith what) (fun t rest heq hkind => ?_)
    exact spec_pure ⟨rest, heq, hkind, rfl⟩
  · rintro t d - ⟨rest, heq, hkind, rfl⟩
    exact hf t rest heq hkind

theorem spec_recover {p : Parse α} {R : Option α → Cursor → Prop} (hp : Spec starved p c Q)
    (hok : ∀ a d, c.Onward d → Q a d → R (some a) d)
    (hfail : ∀ x d, c.Onward d → R none (d.complain x).synchronize) :
    Spec starved (recover p) c R := by
  unfold Spec at hp ⊢
  unfold recover
  cases hpc : p c with
  | ok a d =>
    rw [hpc] at hp
    exact ⟨hp.1, hok a d hp.1 hp.2⟩
  | fail x d =>
    rw [hpc] at hp
    exact ⟨hp.trans ((Cursor.onward_complain d x).trans (Cursor.onward_synchronize _)),
      hfail x d hp⟩
  | outOfFuel =>
    rw [hpc] at hp
    exact hp

end Parse

end Lox
