import Chronogram.Proofs.Rereading

/-! What a reader finds is a phrase of its kind. Together with the readings of written phrases this makes the
instantiations that are read those that are written, each with one list of arguments. -/

namespace Chronogram

open Token Fallible

namespace Reader

variable {α β : Type} {p q : Reader α} {f : α → Reader β} {P P' : List Token → α → Prop}
  {Q : α → List Token → β → Prop}

/-- Whatever the reader takes from the front of the tokens is a phrase. -/
def Finds (p : Reader α) (P : List Token → α → Prop) : Prop :=
  ∀ ts a rest, p ts = .ok (some (a, rest)) → ∃ used, ts = used ++ rest ∧ P used a

theorem Finds.mono (h : p.Finds P) (hP : ∀ ts a, P ts a → P' ts a) : p.Finds P' := by
  intro ts a rest hread
  obtain ⟨used, hts, hused⟩ := h ts a rest hread
  exact ⟨used, hts, hP used a hused⟩

theorem finds_pure (a : α) : Finds (pure a : Reader α) fun ts b => ts = [] ∧ b = a := by
  intro ts b rest hread
  cases hread
  exact ⟨[], rfl, rfl, rfl⟩

theorem exists_of_bind {ts rest : List Token} {b : β} (h : (p >>= f) ts = .ok (some (b, rest))) :
    ∃ a rest', p ts = .ok (some (a, rest')) ∧ f a rest' = .ok (some (b, rest)) := by
  simp only [Bind.bind] at h
  split at h
  next a rest' hfirst => exact ⟨a, rest', hfirst, h⟩
  · cases h
  · cases h

theorem Finds.bind (hp : p.Finds P) (hf : ∀ a, (f a).Finds (Q a)) :
    (p >>= f).Finds fun ts b => ∃ us a vs, ts = us ++ vs ∧ P us a ∧ Q a vs b := by
  intro ts b rest hread
  obtain ⟨a, rest', hfirst, hsecond⟩ := exists_of_bind hread
  obtain ⟨us, rfl, hus⟩ := hp ts a rest' hfirst
  obtain ⟨vs, rfl, hvs⟩ := hf a rest' b rest hsecond
  exact ⟨us ++ vs, by simp, us, a, vs, rfl, hus, hvs⟩

theorem Finds.either (hp : p.Finds P) (hq : q.Finds P) : (either p q).Finds P := by
  intro ts a rest hread
  unfold Reader.either at hread
  split at hread
  · exact hq ts a rest hread
  · exact hp ts a rest hread

theorem Finds.optional (hp : p.Finds P) :
    (optional p).Finds fun ts o => (ts = [] ∧ o = none) ∨ ∃ a, o = some a ∧ P ts a := by
  intro ts o rest hread
  unfold Reader.optional at hread
  split at hread
  · cases hread
    exact ⟨[], rfl, .inl ⟨rfl, rfl⟩⟩
  next a rest' hfirst =>
    cases hread
    obtain ⟨used, hts, hused⟩ := hp ts a _ hfirst
    exact ⟨used, hts, .inr ⟨a, rfl, hused⟩⟩
  · cases hread

theorem finds_mark (m : Mark) : (mark m).Finds fun ts _ => ts = [.mark m] := by
  intro ts a rest hread
  unfold mark at hread
  split at hread
  next k ts =>
    split at hread
    next hk =>
      cases hread
      exact ⟨[.mark k], rfl, by rw [hk]⟩
    · cases hread
  · cases hread

theorem finds_word : word.Finds fun ts w => ts = [.word w] := by
  intro ts w rest hread
  unfold word at hread
  split at hread
  · cases hread
    exact ⟨[.word w], rfl, rfl⟩
  · cases hread

theorem finds_number : number.Finds fun ts n => ts = [.number n] := by
  intro ts n rest hread
  unfold number at hread
  split at hread
  · cases hread
    exact ⟨[.number n], rfl, rfl⟩
  · cases hread

theorem finds_eventName : eventName.Finds fun ts x => ts = [.event x] := by
  intro ts x rest hread
  unfold eventName at hread
  split at hread
  · cases hread
    exact ⟨[.event x], rfl, rfl⟩
  · cases hread

theorem finds_expr : expr.Finds (Expr.Derives .sum) :=
  fun ts e rest hread => (Expr.soundAt _).sum ts e rest (Except.ok.inj hread)

theorem Finds.more (hp : p.Finds P) (fuel : Nat) :
    (more p fuel).Finds fun ts as => ∃ items, ts = items.flatMap (.mark .comma :: ·) ∧
      List.Forall₂ P items as := by
  induction fuel with
  | zero =>
    refine (finds_pure []).mono ?_
    rintro ts as ⟨rfl, rfl⟩
    exact ⟨[], rfl, .nil⟩
  | succ fuel ih =>
    intro ts as rest hread
    have hnext := ((finds_mark .comma).bind fun _ => hp).optional
    obtain ⟨o, rest', hfirst, hsecond⟩ := exists_of_bind hread
    obtain ⟨used, rfl, ho⟩ := hnext _ _ _ hfirst
    rcases ho with ⟨rfl, rfl⟩ | ⟨a, rfl, _, -, us, rfl, rfl, hus⟩
    · cases hsecond
      exact ⟨[], rfl, [], rfl, .nil⟩
    · have hothers := ih.bind fun as => finds_pure (a :: as)
      obtain ⟨_, rfl, vs, as', _, rfl, ⟨items, rfl, hitems⟩, rfl, rfl⟩ := hothers _ _ _ hsecond
      exact ⟨_, by simp, us :: items, rfl, .cons hus hitems⟩

theorem Finds.list (hp : p.Finds P) :
    (list p).Finds fun ts as => ∃ items, items ≠ [] ∧ ts = separated items ∧ List.Forall₂ P items as := by
  intro ts as rest hread
  have hfinds := hp.bind fun a => (hp.more ts.length).bind fun as => finds_pure (a :: as)
  obtain ⟨used, hts, us, a, vs, rfl, hus, vs', as', ws, rfl, ⟨items, rfl, hitems⟩, rfl, rfl⟩ :=
    hfinds ts as rest hread
  exact ⟨_, hts, us :: items, by simp, by simp [separated_cons], .cons hus hitems⟩

theorem Finds.enclosed (hp : p.Finds P) (first last : Mark) :
    (enclosed first last p).Finds fun ts as => ∃ items, ts = between first last items ∧
      List.Forall₂ P items as := by
  have hfinds := (finds_mark first).bind fun _ => hp.list.optional.bind fun items =>
    (finds_mark last).bind fun _ => finds_pure (items.getD [])
  refine hfinds.mono ?_
  rintro ts as ⟨_, -, _, rfl, rfl, us, o, _, rfl, ho, _, -, _, rfl, rfl, rfl, rfl⟩
  rcases ho with ⟨rfl, rfl⟩ | ⟨as, rfl, items, -, rfl, hitems⟩
  · exact ⟨[], by simp [between, separated], .nil⟩
  · exact ⟨items, by simp [between], hitems⟩

theorem finds_argument : argument.Finds Instantiation.WritesArgument := by
  refine Finds.either ?_ ?_
  · refine (finds_word.bind fun name => (finds_mark .becomes).bind fun _ =>
      finds_expr.bind fun e => finds_pure (some name, e)).mono ?_
    rintro ts a ⟨_, name, _, rfl, rfl, _, -, _, rfl, rfl, us, e, _, rfl, hus, rfl, rfl⟩
    rw [List.append_nil]
    exact .named name hus
  · refine (finds_expr.bind fun e => finds_pure (none, e)).mono ?_
    rintro ts a ⟨us, e, _, rfl, hus, rfl, rfl⟩
    rw [List.append_nil]
    exact .positional hus

theorem finds_sign :
    sign.Finds fun ts k => (ts = [.mark .plus] ∧ k = 1) ∨ (ts = [.mark .minus] ∧ k = -1) := by
  refine Finds.either ?_ ?_
  · refine ((finds_mark .plus).bind fun _ => finds_pure 1).mono ?_
    rintro ts k ⟨_, -, _, rfl, rfl, rfl, rfl⟩
    exact .inl ⟨rfl, rfl⟩
  · refine ((finds_mark .minus).bind fun _ => finds_pure (-1)).mono ?_
    rintro ts k ⟨_, -, _, rfl, rfl, rfl, rfl⟩
    exact .inr ⟨rfl, rfl⟩

theorem finds_time : time.Finds Time.Writes := by
  have hoffset := (finds_sign.bind fun k => finds_number.bind fun n => finds_pure (k * (n : Int))).optional
  refine (finds_eventName.bind fun event => hoffset.bind fun o =>
    finds_pure (⟨event, o.getD 0⟩ : Time)).mono ?_
  rintro ts t ⟨_, event, _, rfl, rfl, us, o, _, rfl, ho, rfl, rfl⟩
  rcases ho with ⟨rfl, rfl⟩ | ⟨_, rfl, _, k, _, rfl, hk, _, n, _, rfl, rfl, rfl, rfl⟩
  · exact .bare event
  · rcases hk with ⟨rfl, rfl⟩ | ⟨rfl, rfl⟩
    · simpa using Time.Writes.later event n
    · simpa using Time.Writes.earlier event n

theorem finds_portRef : portRef.Finds PortRef.Writes := by
  intro ts r rest hread
  obtain ⟨head, _, hhead, hread₁⟩ := exists_of_bind hread
  obtain ⟨o, _, htail, hvalue⟩ := exists_of_bind hread₁
  obtain ⟨_, rfl, rfl⟩ := finds_word _ _ _ hhead
  obtain ⟨us, rfl, ho⟩ := ((finds_mark .dot).bind fun _ => finds_word).optional _ _ _ htail
  rcases ho with ⟨rfl, rfl⟩ | ⟨tail, rfl, _, -, _, rfl, rfl, rfl⟩
  · cases hvalue
    exact ⟨[.word head], rfl, .own head⟩
  · cases hvalue
    exact ⟨[.word head, .mark .dot, .word tail], rfl, .called head tail⟩

theorem finds_invocation : invocation.Finds Invocation.Writes := by
  have hinputs := (finds_portRef.enclosed .openParen .closeParen).optional
  refine (finds_word.bind fun name => (finds_mark .define).bind fun _ => finds_word.bind fun target =>
    (finds_mark .less).bind fun _ => finds_time.list.bind fun times => (finds_mark .greater).bind fun _ =>
      hinputs.bind fun inputs => finds_pure ({ name, target, times, inputs } : Invocation)).mono ?_
  rintro ts i ⟨_, name, _, rfl, rfl, _, -, _, rfl, rfl, _, target, _, rfl, rfl, _, -, _, rfl, rfl, _, times, _,
    rfl, ⟨items, hne, rfl, htimes⟩, _, -, _, rfl, rfl, us, inputs, _, rfl, ho, rfl, rfl⟩
  rw [List.append_nil]
  refine .triggers name target hne htimes ?_
  rcases ho with ⟨rfl, rfl⟩ | ⟨refs, rfl, items, rfl, hrefs⟩
  · exact .absent
  · exact .listed hrefs

theorem finds_connection : connection.Finds Connection.Writes := by
  refine (finds_portRef.bind fun dest => (finds_mark .becomes).bind fun _ => finds_portRef.bind fun src =>
    finds_pure ({ dest, src } : Connection)).mono ?_
  rintro ts c ⟨us, dest, _, rfl, hdest, _, -, _, rfl, rfl, vs, src, _, rfl, hsrc, rfl, rfl⟩
  rw [List.append_nil]
  exact .wires hdest hsrc

theorem finds_instantiation : instantiation.Finds fun ts i =>
    ∃ arguments, Instantiation.Writes ts i.name i.component arguments ∧
      i = .collected i.name i.component arguments := by
  intro ts i rest hread
  obtain ⟨name, _, hname, hread₁⟩ := exists_of_bind hread
  obtain ⟨_, _, hdefine, hread₂⟩ := exists_of_bind hread₁
  obtain ⟨keyword, _, hkeyword, hread₃⟩ := exists_of_bind hread₂
  split at hread₃
  · cases hread₃
  next hnew =>
    obtain ⟨component, _, hcomponent, hread₄⟩ := exists_of_bind hread₃
    obtain ⟨o, _, harguments, hvalue⟩ := exists_of_bind hread₄
    obtain ⟨_, rfl, rfl⟩ := finds_word _ _ _ hname
    obtain ⟨_, rfl, rfl⟩ := finds_mark _ _ _ _ hdefine
    obtain ⟨_, rfl, rfl⟩ := finds_word _ _ _ hkeyword
    obtain ⟨_, rfl, rfl⟩ := finds_word _ _ _ hcomponent
    obtain ⟨us, rfl, ho⟩ := (finds_argument.enclosed .openBracket .closeBracket).optional _ _ _ harguments
    obtain rfl : keyword = "new" := by simpa using hnew
    cases hvalue
    refine ⟨.word name :: .mark .define :: .word "new" :: .word component :: us, by simp, o.getD [], ?_, ?_⟩
    · rcases ho with ⟨rfl, rfl⟩ | ⟨arguments, rfl, items, rfl, hitems⟩
      · exact .bare name component
      · exact .listed name component hitems
    · exact congrArg (fun named => Instantiation.mk name component _ named none)
        (foldl_collect (fun _ _ => rfl) (fun _ _ _ => rfl) [] (o.getD []))

theorem whole_eq_ok_iff {s : String} {what : Phrase} {a : α} :
    p.whole what s = .ok a ↔ p (scan s.toList) = .ok (some (a, [])) := by
  unfold whole
  constructor
  · intro h
    split at h
    next heq =>
      cases h
      exact heq
    · cases h
    · cases h
  · intro h
    rw [h]

theorem statement_eq_instantiate {ts rest : List Token} {i : Instantiation}
    (h : statement ts = .ok (some (.instantiate i, rest))) : instantiation ts = .ok (some (i, rest)) := by
  unfold statement either at h
  split at h
  · -- the other two readers give other statements
    split at h
    · obtain ⟨c, _, _, hc⟩ := exists_of_bind h
      cases hc
    · obtain ⟨inv, _, _, hinv⟩ := exists_of_bind h
      cases hinv
  · obtain ⟨i', _, hi, hread⟩ := exists_of_bind h
    cases hread
    exact hi

end Reader

namespace Instantiation

/-- Tokens are written as an instantiation in one way. -/
theorem Writes.unique {ts : List Token} {name component : String}
    {arguments arguments' : List (Option String × Expr)} (h : Writes ts name component arguments)
    (h' : Writes ts name component arguments') : arguments = arguments' := by
  obtain ⟨us, o, rfl, ho, rfl⟩ := Reader.takes_arguments h
  obtain ⟨us', o', hts, ho', rfl⟩ := Reader.takes_arguments h'
  obtain rfl : us = us' := by simpa using hts
  have hread := (ho [] (Reader.clear_nil _)).symm.trans (ho' [] (Reader.clear_nil _))
  obtain rfl : o = o' := by simpa using hread
  rfl

/-- A text is read as an instantiation exactly if one is written, and of its arguments as much is kept as can
be collected. -/
theorem parse_iff {s : String} {loc : Option Loc} {i : Instantiation} :
    Statement.parse s loc = .ok (.instantiate i) ↔ i.loc = loc ∧
      ∃ arguments, Writes (scan s.toList) i.name i.component arguments ∧
        { i with loc := none } = collected i.name i.component arguments := by
  constructor
  · intro h
    obtain ⟨st, hst, h⟩ := bind_eq_ok.1 h
    cases st with
    | instantiate i' =>
      cases h
      have hread := Reader.statement_eq_instantiate (Reader.whole_eq_ok_iff.1 hst)
      obtain ⟨used, hts, arguments, hwrites, hi⟩ := Reader.finds_instantiation _ _ _ hread
      rw [List.append_nil] at hts
      rw [hts]
      exact ⟨rfl, arguments, hwrites, by rw [hi]; rfl⟩
    | invoke inv => cases h
    | connect c => cases h
  · rintro ⟨rfl, arguments, hwrites, hi⟩
    have hread := Reader.takes_instantiation hwrites [] (Reader.clear_nil _)
    rw [List.append_nil, ← hi] at hread
    have hstatement : Reader.statement (scan s.toList) =
        .ok (some (.instantiate { i with loc := none }, [])) := by
      rw [Reader.statement, Reader.either, Reader.bind_eq hread]
      rfl
    exact bind_eq_ok.2 ⟨_, Reader.whole_eq_ok_iff.2 hstatement, rfl⟩

end Instantiation

end Chronogram
