import FilterSql.Main
import FilterSql.Proofs.Compile.Run
import FilterSql.Proofs.Compile.Form
import FilterSql.Proofs.Schema.Names
import FilterSql.Proofs.Sql.Words
import FilterSql.Proofs.Compile.Emission
import FilterSql.Proofs.Compile.Vocabulary
import FilterSql.Proofs.Compile.Hygiene
import FilterSql.Proofs.Compile.Texts
import FilterSql.Proofs.Compile.Rescoping
import FilterSql.Proofs.Compile.Relocation
import FilterSql.Proofs.Compile.BooleanComparison
import FilterSql.Proofs.Filter.Meaning
import FilterSql.Proofs.Compile.Evaluating
import FilterSql.Proofs.Compile.Ranging
import FilterSql.Proofs.Compile.Surrounding
import FilterSql.Proofs.Compile.Correctness
import FilterSql.Proofs.Compile.Reentry
import FilterSql.Proofs.Compile.Checks
import FilterSql.Proofs.Compile.Blame
import FilterSql.Proofs.Compile.Sorting
import FilterSql.Proofs.Compile.Sorts
import FilterSql.Proofs.Filter.RoundTrip
import FilterSql.Proofs.Compile.Legibility
import FilterSql.Proofs.Sql.Tokens
import FilterSql.Proofs.Sql.Strings
import FilterSql.Proofs.Filter.Nameless
import FilterSql.Proofs.Compile.Repeating
import FilterSql.Proofs.Compile.Places
import FilterSql.Proofs.Compile.Correspondence
import FilterSql.Proofs.Compile.Naming
import FilterSql.Proofs.Compile.Reaching
import FilterSql.Proofs.Compile.Assembly
import FilterSql.Proofs.Compile.Support
import FilterSql.Proofs.Compile.Binding
import FilterSql.Proofs.Sql.Relabeling
import FilterSql.Proofs.Compile.Relabeling
import FilterSql.Proofs.Compile.Shifting
import FilterSql.Proofs.Compile.Halves
import FilterSql.Proofs.Compile.Parameters
import FilterSql.Proofs.Compile.Comparing
import FilterSql.Proofs.Compile.Storage
import FilterSql.Proofs.Compile.Nesting
import FilterSql.Proofs.Compile.TextSearch
import FilterSql.Proofs.Compile.Numbers
import FilterSql.Proofs.Compile.Moments
import FilterSql.Proofs.Compile.Exactness
import FilterSql.Proofs.Compile.Mirroring
import FilterSql.Proofs.Schema.Paths
import FilterSql.Proofs.Schema.DeadEnds
import FilterSql.Proofs.Schema.Declarations
import FilterSql.Proofs.Schema.Resuming
import FilterSql.Proofs.Compile.Spellings
import FilterSql.Proofs.Json.Layout
import FilterSql.Proofs.Schema.Coding
import FilterSql.Proofs.Value.Equality
