import ProgramQuery.Main
import ProgramQuery.Proofs.Clause.Comparisons
import ProgramQuery.Proofs.Clause.Wholes
import ProgramQuery.Proofs.Evaluation.BoundPatterns
import ProgramQuery.Proofs.Evaluation.Conjunction
import ProgramQuery.Proofs.Evaluation.Join
import ProgramQuery.Proofs.Evaluation.Records
import ProgramQuery.Proofs.Evaluation.Renaming
import ProgramQuery.Proofs.Evaluation.Truth
import ProgramQuery.Proofs.Expression.Agreement
import ProgramQuery.Proofs.Links.Components
import ProgramQuery.Proofs.Program.LineBreaks
import ProgramQuery.Proofs.Program.Lookups
import ProgramQuery.Proofs.Program.Tables
import ProgramQuery.Proofs.Query.Declared
import ProgramQuery.Proofs.Query.NameTokens
import ProgramQuery.Proofs.Query.Progress
import ProgramQuery.Proofs.Query.Rejection
import ProgramQuery.Proofs.Relation.Closures
import ProgramQuery.Table.Listing
import ProgramQuery.Table.Name
import ProgramQuery.Tree.Shared
