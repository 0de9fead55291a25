import RDownloader.Lib.Repeating
import RDownloader.SiteRules.Executor

/-!
# What the steps of a rule read

A step reads the variables its templates and its source name, and the page in hand. Two runs that
agree on these, one of which has spent no more than the other, go through a step alike.
-/

namespace RDownloader

namespace SiteRules

/-! ## Names -/

def templateReads (template : String) : List String := (templateVariables template).getD []

/-- The variables a step reads, the page in hand apart. -/
def Step.reads : Step → List String
  | fetch url _ => (url.map templateReads).getD []
  | fetchJson url _ _ => templateReads url
  | regex _ source _ _ => [source.getD pageVariable]
  | decode _ source _ | redirect source _ => [source]
  | form url fields _ _ => templateReads url ++ fields.flatMap fun field => templateReads field.2
  | captcha _ sitekey _ page _ =>
    (sitekey.map templateReads).getD [] ++ (page.map templateReads).getD []

def PackageSource.reads : PackageSource → List String
  | title => [pageVariable]
  | regex _ source => [source.getD pageVariable]
  | «variable» name => [name]

/-- The variables the steps of a group and its name read. -/
def Groups.reads (groups : Groups) : List String :=
  pageUrlVariable :: groups.steps.flatMap Step.reads ++ groups.package.reads

namespace Variables

variable {vars vars' : Variables} {template : String} {names found : List String}

theorem substitute_congr (h : ∀ name ∈ templateReads template, vars' name = vars name)
    (entry : Option (String × String)) :
    vars'.substitute template entry = vars.substitute template entry := by
  rw [substitute, substitute]
  rw [templateReads] at h
  split
  next => rfl
  next names hnames =>
    rw [hnames, Option.getD_some] at h
    clear hnames
    generalize template = text
    induction names generalizing text with
    | nil => rfl
    | cons name names ih =>
      obtain ⟨hname, hrest⟩ := List.forall_mem_cons.mp h
      rw [List.foldlM_cons, List.foldlM_cons, hname]
      congr 1
      funext text
      exact ih hrest text

theorem lists_congr (h : ∀ name ∈ names, vars' name = vars name) (found : List String) :
    vars'.lists names found = vars.lists names found := by
  induction names generalizing found with
  | nil => rfl
  | cons name names ih =>
    obtain ⟨hname, hrest⟩ := List.forall_mem_cons.mp h
    rw [lists, lists, hname]
    split
    next => rfl
    next => exact ih hrest _
    next => exact ih hrest _

theorem lists_subset {result : List String} (h : vars.lists names found = .ok result) :
    ∀ name ∈ result, name ∈ found ∨ name ∈ names := by
  induction names generalizing found with
  | nil =>
    cases h
    exact fun name => .inl
  | cons first names ih =>
    rw [lists] at h
    split at h
    next => cases h
    next =>
      intro name hname
      rcases ih h name hname with hfound | hrest
      · split at hfound
        next => exact .inl hfound
        next =>
          rcases List.mem_append.mp hfound with hfound | hlast
          · exact .inl hfound
          · exact .inr (List.mem_singleton.mp hlast ▸ List.mem_cons_self)
      · exact .inr (List.mem_cons_of_mem _ hrest)
    next =>
      exact fun name hname => (ih h name hname).imp_right (List.mem_cons_of_mem _)

theorem expandEach_congr (h : ∀ name ∈ templateReads template, vars' name = vars name) :
    vars'.expandEach template = vars.expandEach template := by
  have hsubstitute := substitute_congr h
  have hexpand : vars'.expand template = vars.expand template := hsubstitute none
  rw [templateReads] at h
  rw [expandEach, expandEach]
  split
  next => rfl
  next names hnames =>
    rw [hnames, Option.getD_some] at h
    rw [lists_congr h]
    split
    next => rfl
    next => rw [hexpand]
    next list hlist =>
      have hmem : list ∈ names :=
        (lists_subset hlist list (List.mem_singleton_self _)).resolve_left List.not_mem_nil
      simp only [hsubstitute, h list hmem]
    next => rfl

end Variables

end SiteRules

end RDownloader
