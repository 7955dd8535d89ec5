/- What the library does not look into: the names of members, keys, and stored values. -/
namespace Multiversion

/-- The name of a member of the cluster. -/
abbrev Address := String

abbrev Key := String

abbrev Value := String

end Multiversion
