import Vimscript.Proofs.Grammar.Compose
import Vimscript.Proofs.Grammar.Opening

/-!
# Arguments behind what takes them

Arguments behind the name of a function or behind a lambda are no attachment, since the call by name
and the call of the lambda take them first. So whatever stands behind a primary with attachments
makes a longer one: attached to it, or taken by the primary itself.
-/

namespace Vimscript

open Pattern Text

namespace Derives

variable {here mid stop : Cursor} {r : Rule} {t x : Tree Rule}

/-- Name characters behind a letter are the name of a function. -/
theorem functionName_lexeme {v rest : List Char} (hv : IsRun isNameChar v)
    (hstart : v.head?.any isNameStart = true) (hend : EndsBefore isNameChar rest) :
    Rule.functionName.Lexeme v rest := by
  obtain ⟨c, w, rfl⟩ := List.exists_cons_of_ne_nil hv.1
  exact ⟨⟨c, w, rfl, hstart, (Bool.and_eq_true_iff.mp (List.all_cons ▸ hv.2)).2⟩, hend⟩

/-- A variable with the name of a function becomes a call where arguments follow. -/
theorem functionCall_of_variableRef {parts : List (Tree Rule)}
    (h : Derives Rule.variableRef.pattern here mid parts)
    (hname : parts.getLast?.any (fun name => name.text.head?.any isNameStart) = true)
    (hx : Derives (.rule .callArgs) mid stop [x]) :
    ∃ t, Derives (.rule .functionCall) here stop [t] := by
  rcases choice_iff.mp h with h | h
  · obtain ⟨next, us, vs, hscope, hlast, rfl⟩ := seq_iff.mp (counted_iff.mp h)
    obtain ⟨v, hmove, ⟨hv, hend⟩, rfl⟩ := (token_iff rfl).mp (call_iff.mp hlast)
    rw [List.getLast?_concat, Option.any_some, hmove.node_text] at hname
    exact ⟨_, .rule rfl (.counted (.seq (.counted (.present hscope)) (.seq
      (call_iff.mpr (.token rfl hmove (functionName_lexeme hv hname hend))) (call_iff.mpr hx))))
      trivial⟩
  · obtain ⟨v, hmove, ⟨hv, hend⟩, rfl⟩ := (token_iff rfl).mp (call_iff.mp h)
    exact ⟨_, .rule rfl (.counted (.seq (.counted .absent) (.seq
      (call_iff.mpr (.token rfl hmove ⟨hv, hend⟩)) (call_iff.mpr hx)))) trivial⟩

/-- A primary that takes arguments has them where they follow. -/
theorem primary_call {first : Tree Rule} (h : Derives (.rule .primary) here mid [first])
    (hfirst : first.takesCall = true) (hx : Derives (.rule .callArgs) mid stop [x]) :
    ∃ t, Derives (.rule .primary) here stop [t] := by
  obtain ⟨children, hpattern, -, hnode⟩ := (rule_iff rfl).mp h
  obtain rfl := List.singleton_inj.mp hnode
  rcases primary_iff.mp hpattern with ⟨r, hr, hinner⟩ | hinner
  · obtain ⟨inner, rfl⟩ := hinner.eq_singleton
    have hlabel := hinner.span_eq.2
    obtain ⟨label, span, excerpt, parts⟩ := inner
    obtain rfl : label = r := hlabel
    rw [Rule.node, Tree.takesCall] at hfirst
    by_cases hvariable : label = .variableRef
    · subst hvariable
      obtain ⟨parts', hparts, -, hnode⟩ := (rule_iff rfl).mp hinner
      injection List.singleton_inj.mp hnode with _ _ _ same
      subst same
      obtain ⟨t, ht⟩ := functionCall_of_variableRef hparts hfirst hx
      obtain ⟨ts, -, -, hnode⟩ := (rule_iff rfl).mp ht
      obtain rfl := List.singleton_inj.mp hnode
      exact ⟨_, .rule rfl (primary_iff.mpr (.inl ⟨_, by decide, ht⟩)) trivial⟩
    · by_cases hlambda : label = .lambdaExpr
      · subst hlambda
        obtain ⟨parts', hparts, -, hnode⟩ := (rule_iff rfl).mp hinner
        injection List.singleton_inj.mp hnode with _ _ _ same
        subst same
        obtain ⟨next, us, vs, hvalue, hargs, rfl⟩ := seq_iff.mp (counted_iff.mp hparts)
        obtain ⟨lambda, rfl⟩ := (call_iff.mp hvalue).eq_singleton
        rcases opt_iff.mp (counted_iff.mp hargs) with ⟨rfl, rfl⟩ | hargs
        · have hcall := Derives.rule (r := .lambdaExpr) rfl
            (.counted (.seq hvalue (.counted (.present (call_iff.mpr hx))))) trivial
          exact ⟨_, .rule rfl (primary_iff.mpr (.inl ⟨_, by decide, hcall⟩)) trivial⟩
        · obtain ⟨args, rfl⟩ := (call_iff.mp hargs).eq_singleton
          cases hfirst
      · simp only [primaryRules, List.mem_cons, List.not_mem_nil, or_false] at hr
        rcases hr with rfl | rfl | rfl | rfl | rfl | rfl | rfl | rfl | rfl | rfl | rfl | rfl | rfl <;>
          first | cases hfirst | exact (hvariable rfl).elim | exact (hlambda rfl).elim
  · obtain ⟨⟨label, span, excerpt, parts⟩, rfl, hlabel⟩ := hinner.paren_cases
    obtain rfl : label = .expr := hlabel
    cases hfirst

/-- Whatever stands behind a primary with attachments can be attached. -/
theorem postfixed_attach (h : Derives (.rule .postfixed) here mid [t])
    (hr : r ∈ attachments) (hx : Derives (.rule r) mid stop [x]) :
    ∃ t', Derives (.rule .postfixed) here stop [t'] := by
  by_cases hcall : ∀ first, t.children = [first] → r = .callArgs → first.takesCall = false
  · exact ⟨_, h.postfixed_snoc hr hx hcall⟩
  · obtain ⟨first, hchildren, rfl, hfirst⟩ : ∃ first, t.children = [first] ∧ r = .callArgs ∧
        first.takesCall = true := by
      simpa using hcall
    obtain ⟨children, hpattern, -, hnode⟩ := (rule_iff rfl).mp h
    obtain rfl := List.singleton_inj.mp hnode
    obtain ⟨next, us, vs, hprimary, hattached, rfl⟩ := seq_iff.mp (counted_iff.mp hpattern)
    obtain ⟨first', rfl⟩ := (call_iff.mp hprimary).eq_singleton
    obtain ⟨rfl, rfl⟩ := List.cons.inj hchildren
    rcases many_iff.mp (counted_iff.mp hattached) with ⟨-, rfl, -⟩ | ⟨_, us, _, hround, -, hvs⟩
    · obtain ⟨t', ht'⟩ := (call_iff.mp hprimary).primary_call hfirst hx
      exact ⟨_, .rule rfl (.counted (.seq (call_iff.mpr ht') (.counted (.done nofun)))) trivial⟩
    · obtain ⟨rfl, -⟩ := List.append_eq_nil_iff.mp hvs.symm
      simp only [firstOf, choice_iff, call_iff] at hround
      rcases hround with hround | hround | hround <;> cases hround.eq_singleton.choose_spec

end Derives

end Vimscript
