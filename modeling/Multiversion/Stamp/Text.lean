import Multiversion.Stamp.Basic
/- Stamps as they are shown in messages and in lines of the journal. -/
namespace Multiversion

def Position.text (p : Position) : String := s!"{p.value}.{p.sub}"

def WriteStamp.text (w : WriteStamp) : String := s!"CacheEntry({w.position.text}, view={w.view})"

def CommitStamp.text (c : CommitStamp) : String :=
  s!"{(Kind.commit c.placement).name}({c.value}, view={c.view})"

/-- The bound with its pin, and the excluded writes if there are any. -/
def Snapshot.text (s : Snapshot) : String :=
  let bound := match s.pin with
    | some sub => Position.text ⟨s.value, sub⟩
    | none => toString s.value
  let excluded :=
    if s.excluded.isEmpty then ""
    else ", not_visible=[" ++ String.intercalate ", " (s.excluded.toList.map Position.text) ++ "]"
  s!"Read({bound}, view={s.view}{excluded})"

def Stamp.text : Stamp → String
  | absent => "NON_EXISTING"
  | write w => w.text
  | snapshot s => s.text
  | commit c => c.text

end Multiversion
