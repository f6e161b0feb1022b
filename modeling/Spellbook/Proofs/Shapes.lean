import Spellbook.Proofs.Building
import Spellbook.Proofs.Roles

/-!
# The shapes of trees that are read

Every production gives its parts the seats that the form it builds asks for, so a program that is
read fits together (`Tree.role_of_read`), and strictly so if it is tidy (`Tree.role_tidy_of_read`).
-/

namespace Spellbook

/-- Whether what a nonterminal stands for may have the given role. -/
def Nonterminal.allowsRole : Nonterminal → Role → Bool
  | .name, ρ => ρ == .name
  | .range, ρ => ρ == .range
  | .parameters, ρ => ρ == .names
  | .arguments, ρ => ρ == .values
  | .yore, _ | .tome, _ | .tomeContents, _ => true
  | .expression, ρ | .eitherExpr, ρ | .bothExpr, ρ | .compareExpr, ρ | .sumExpr, ρ | .productExpr, ρ
  | .unaryExpr, ρ | .powerExpr, ρ | .primary, ρ | .number, ρ => ρ.isPlain
  | _, ρ => ρ == .deed

/-- The roles of the trees that nonterminals stand for. -/
def Shaped : Account
  | .instructions, ts, _ => ∀ t ∈ ts, t.role .lax = .deed
  | .parameterList, ts, _ => ∀ t ∈ ts, t.role .lax = .name
  | .furtherArguments, ts, _ => ∀ t ∈ ts, (t.role .lax).isPlain = true
  | .parts, ts, _ => ∀ t ∈ ts, (t.role .lax).isPlain = true
  | .shifts, ts, _ => ∀ ρs, Form.branchesFit (ts.map (Tree.role .lax) ++ ρs) = Form.branchesFit ρs
  | n, ts, _ => ∃ t, ts = [t] ∧ n.allowsRole (t.role .lax) = true

section
open Grammar (rule condition braced cycleOver)

theorem isPlain_ownText {p : Prop} [Decidable p] :
    (if p then Role.resolve else Role.word).isPlain = true := by
  split <;> rfl

theorem isPlain_of_eq_deed {ρ : Role} (h : ρ = .deed) : ρ.isPlain = true := by
  rw [h]
  rfl

theorem spelled_resolve {text : String} :
    Lexeme.Spelled ⟨.resolve, text.toList⟩ ↔ text = resolveWord := by
  constructor
  · intro h
    exact String.toList_injective (h _ rfl)
  · rintro rfl w hw
    cases hw
    rfl

-- Each production is built symbolically: its right side is known, the roles of its parts are
-- variables.

attribute [local simp] Tree.role Tree.roles_eq_map Form.fits Form.seats Form.role
  Seat.admitAll Seat.admits
  Terminal.role Terminal.use Nonterminal.allowsRole isPlain_ownText isPlain_of_eq_deed
    spelled_resolve
  Form.branchesFit Form.textFits

/-- What a production builds has a role that its nonterminal allows. -/
theorem productions_shaped {p : Production} (hp : p ∈ Grammar.productions) : p.Respects Shaped := by
  revert p
  simp only [Grammar.productions, Grammar.statements, Grammar.control, Grammar.expressions,
    Grammar.lists, List.forall_mem_append, List.forall_mem_cons]
  and_intros
  all_goals first
    | exact List.forall_mem_nil _
    | refine Production.respects_of_ensures ?_
      simp only [Production.trees, Account.Ensures, Shaped, rule, Grammar.pass, Grammar.list,
        condition, braced, cycleOver, List.cons_append, List.nil_append, forall_exists_index,
        and_imp]
      intros
      subst_eqs
      simp_all <;> grind [Role.isPlain_deed]

end

/-- **A program that is read fits together.** -/
theorem Tree.role_of_read {source : String} {t : Tree} (h : Tree.read source = .ok t) :
    t.role .lax = .deed := by
  obtain ⟨c, -, -, hreads⟩ := Reader.read_eq_ok_iff.mp h
  obtain ⟨t', ht, hrole⟩ := hreads.accounted (F := Shaped) fun _ => productions_shaped
  cases ht
  exact eq_of_beq hrole

/-- A tidy one strictly so. -/
theorem Tree.role_tidy_of_read {source : String} {t : Tree} (h : Tree.read source = .ok t)
    (htidy : t.isTidy = true) : t.role .tidy = .deed :=
  (Tree.role_tidy htidy).trans (Tree.role_of_read h)

end Spellbook
